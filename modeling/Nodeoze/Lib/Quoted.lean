import Mathlib.Data.List.Basic
import Mathlib.Tactic.Common

/-!
# Literals between quotes

A literal runs from a quote to the next quote that no other quote follows.  Two quotes in it stand for one.
-/

namespace Quoted

variable {α : Type} [DecidableEq α] (q : α)

/-- A literal behind its opening quote: its value, and what follows it. -/
def body : List α → Option (List α × List α)
  | [] => none
  | [c] => if c = q then some ([], []) else none
  | c :: d :: cs =>
    if c = q then
      if d = q then (body cs).map fun read => (q :: read.1, read.2) else some ([], d :: cs)
    else (body (d :: cs)).map fun read => (c :: read.1, read.2)

/-- The literal that a text begins with. -/
def literal : List α → Option (List α × List α)
  | [] => none
  | c :: cs => if c = q then body q cs else none

/-- The value with each quote twice. -/
def doubled (s : List α) : List α := s.flatMap fun c => if c = q then [q, q] else [c]

variable {q} {s t l : List α}

theorem doubled_quote (s : List α) : doubled q (q :: s) = q :: q :: doubled q s := by
  simp [doubled]

theorem doubled_ne {c : α} (hc : c ≠ q) (s : List α) : doubled q (c :: s) = c :: doubled q s := by
  simp [doubled, hc]

theorem body_quote (ht : t.head? ≠ some q) : body q (q :: t) = some ([], t) := by
  cases t with
  | nil => simp [body]
  | cons d t =>
    have hd : d ≠ q := fun hd => ht (by rw [hd, List.head?_cons])
    simp [body, hd]

theorem body_two_quotes (l : List α) : body q (q :: q :: l) = (body q l).map fun read => (q :: read.1, read.2) := by
  simp [body]

theorem body_ne {c : α} (hc : c ≠ q) (l : List α) :
    body q (c :: l) = (body q l).map fun read => (c :: read.1, read.2) := by
  cases l with
  | nil => simp [body, hc]
  | cons d l => simp [body, hc]

/-- By induction on the value: a quote in it is read with the one that follows it. -/
theorem body_doubled (ht : t.head? ≠ some q) (s : List α) : body q (doubled q s ++ q :: t) = some (s, t) := by
  induction s with
  | nil => exact body_quote ht
  | cons c s ih =>
    by_cases hc : c = q
    · rw [hc, doubled_quote, List.cons_append, List.cons_append, body_two_quotes, ih]
      rfl
    · rw [doubled_ne hc, List.cons_append, body_ne hc, ih]
      rfl

theorem of_body (h : body q l = some (s, t)) : l = doubled q s ++ q :: t ∧ t.head? ≠ some q := by
  induction l using body.induct q generalizing s with
  | case1 => simp [body] at h
  | case2 =>
    simp only [body, if_true, Option.some.injEq, Prod.mk.injEq] at h
    obtain ⟨rfl, rfl⟩ := h
    exact ⟨rfl, by simp⟩
  | case3 c hc => simp [body, hc] at h
  | case4 cs ih =>
    rw [body_two_quotes, Option.map_eq_some_iff] at h
    obtain ⟨⟨s', t'⟩, hread, heq⟩ := h
    obtain ⟨rfl, rfl⟩ := Prod.mk.inj heq
    obtain ⟨hl, ht⟩ := ih hread
    exact ⟨by rw [doubled_quote, hl]; rfl, ht⟩
  | case5 d cs hd =>
    have ht : (d :: cs).head? ≠ some q := by simpa using hd
    rw [body_quote ht, Option.some.injEq, Prod.mk.injEq] at h
    obtain ⟨rfl, rfl⟩ := h
    exact ⟨rfl, ht⟩
  | case6 c d cs hc ih =>
    rw [body_ne hc, Option.map_eq_some_iff] at h
    obtain ⟨⟨s', t'⟩, hread, heq⟩ := h
    obtain ⟨rfl, rfl⟩ := Prod.mk.inj heq
    obtain ⟨hl, ht⟩ := ih hread
    exact ⟨by rw [doubled_ne hc, hl]; rfl, ht⟩

/-- The text of a literal is the only one with its value. -/
theorem literal_iff : literal q l = some (s, t) ↔ l = q :: (doubled q s ++ q :: t) ∧ t.head? ≠ some q := by
  constructor
  · intro h
    cases l with
    | nil => simp [literal] at h
    | cons c l =>
      rw [literal] at h
      split_ifs at h with hc
      obtain ⟨hl, ht⟩ := of_body h
      rw [hc, hl]
      exact ⟨rfl, ht⟩
  · rintro ⟨rfl, ht⟩
    rw [literal, if_pos rfl, body_doubled ht]

end Quoted
