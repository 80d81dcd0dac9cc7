import Mathlib.Data.List.Basic
import Mathlib.Tactic.Common

/-!
# Conditions with three truth values

Conditions over atoms with `NOT`, `AND`, `OR` and parentheses, as a sequence of tokens that a grammar
reads: `NOT` binds tighter than `AND`, and `AND` tighter than `OR`.  The grammar is unambiguous
(`Derives.unique`).  A value is true, false or unknown.

`derives_and` is about a text of which only the end is known: an `AND` behind it takes the last operand of
the last `OR` that is outside of all parentheses, not the whole.
-/

namespace Condition

variable {α : Type}

inductive Token (α : Type)
  | atom (a : α)
  | not
  | and
  | or
  | left
  | right
  deriving DecidableEq, Repr

inductive Cond (α : Type)
  | atom (a : α)
  | not (c : Cond α)
  | and (c d : Cond α)
  | or (c d : Cond α)
  deriving DecidableEq, Repr

/-! ## Values -/

def not3 : Option Bool → Option Bool := Option.map Bool.not

def and3 : Option Bool → Option Bool → Option Bool
  | some false, _ => some false
  | _, some false => some false
  | some true, some true => some true
  | _, _ => none

def or3 : Option Bool → Option Bool → Option Bool
  | some true, _ => some true
  | _, some true => some true
  | some false, some false => some false
  | _, _ => none

theorem and3_eq_true (x y : Option Bool) : and3 x y = some true ↔ x = some true ∧ y = some true := by
  rcases x with _ | _ | _ <;> rcases y with _ | _ | _ <;> decide

theorem or3_eq_true (x y : Option Bool) : or3 x y = some true ↔ x = some true ∨ y = some true := by
  rcases x with _ | _ | _ <;> rcases y with _ | _ | _ <;> decide

def Cond.eval (val : α → Option Bool) : Cond α → Option Bool
  | .atom a => val a
  | .not c => not3 (c.eval val)
  | .and c d => and3 (c.eval val) (d.eval val)
  | .or c d => or3 (c.eval val) (d.eval val)

/-- A condition is satisfied if it is true, not if it is unknown. -/
def Cond.Satisfied (c : Cond α) (val : α → Option Bool) : Prop := c.eval val = some true

@[simp] theorem satisfied_and (c d : Cond α) (val : α → Option Bool) :
    (c.and d).Satisfied val ↔ c.Satisfied val ∧ d.Satisfied val := and3_eq_true _ _

@[simp] theorem satisfied_or (c d : Cond α) (val : α → Option Bool) :
    (c.or d).Satisfied val ↔ c.Satisfied val ∨ d.Satisfied val := or3_eq_true _ _

/-! ## The grammar -/

/-- What may stand as an operand: of `NOT` and `AND`, of `OR`, in parentheses. -/
inductive Level
  | factor
  | term
  | whole
  deriving DecidableEq, Repr

inductive Derives : Level → List (Token α) → Cond α → Prop
  | atom (a : α) : Derives .factor [.atom a] (.atom a)
  | parens {ts : List (Token α)} {c : Cond α} : Derives .whole ts c →
      Derives .factor (.left :: (ts ++ [.right])) c
  | not {ts : List (Token α)} {c : Cond α} : Derives .factor ts c → Derives .factor (.not :: ts) (.not c)
  | factor {ts : List (Token α)} {c : Cond α} : Derives .factor ts c → Derives .term ts c
  | and {ts us : List (Token α)} {c d : Cond α} : Derives .term ts c → Derives .factor us d →
      Derives .term (ts ++ .and :: us) (.and c d)
  | term {ts : List (Token α)} {c : Cond α} : Derives .term ts c → Derives .whole ts c
  | or {ts us : List (Token α)} {c d : Cond α} : Derives .whole ts c → Derives .term us d →
      Derives .whole (ts ++ .or :: us) (.or c d)

/-- What reading goes on from. -/
abbrev Item (α : Type) := List (Token α) × Cond α

/-- The operands behind the first one, each with its operator. -/
def joined (sep : Token α) (xs : List (Item α)) : List (Token α) := xs.flatMap fun x => sep :: x.1

theorem joined_append (sep : Token α) (xs ys : List (Item α)) :
    joined sep (xs ++ ys) = joined sep xs ++ joined sep ys := List.flatMap_append

theorem Derives.factors {ts : List (Token α)} {c : Cond α} (h : Derives .term ts c) :
    ∃ (x : Item α) (xs : List (Item α)), (∀ y ∈ x :: xs, Derives .factor y.1 y.2) ∧
      ts = x.1 ++ joined .and xs ∧ c = xs.foldl (fun acc y => .and acc y.2) x.2 := by
  generalize hl : Level.term = l at h
  induction h with
  | atom | parens | not | term | or => cases hl
  | @factor ts c h _ =>
    refine ⟨(ts, c), [], ?_, (List.append_nil ts).symm, rfl⟩
    intro y hy
    rw [List.mem_singleton.mp hy]
    exact h
  | @and ts us c d _ hd ih _ =>
    obtain ⟨x, xs, hall, rfl, rfl⟩ := ih rfl
    refine ⟨x, xs ++ [(us, d)], ?_, ?_, ?_⟩
    · intro y hy
      rw [← List.cons_append, List.mem_append, List.mem_singleton] at hy
      rcases hy with hy | rfl
      · exact hall y hy
      · exact hd
    · rw [joined_append, ← List.append_assoc]
      simp [joined]
    · rw [List.foldl_append]
      rfl

theorem Derives.terms {ts : List (Token α)} {c : Cond α} (h : Derives .whole ts c) :
    ∃ (x : Item α) (xs : List (Item α)), (∀ y ∈ x :: xs, Derives .term y.1 y.2) ∧
      ts = x.1 ++ joined .or xs ∧ c = xs.foldl (fun acc y => .or acc y.2) x.2 := by
  generalize hl : Level.whole = l at h
  induction h with
  | atom | parens | not | factor | and => cases hl
  | @term ts c h _ =>
    refine ⟨(ts, c), [], ?_, (List.append_nil ts).symm, rfl⟩
    intro y hy
    rw [List.mem_singleton.mp hy]
    exact h
  | @or ts us c d _ hd ih _ =>
    obtain ⟨x, xs, hall, rfl, rfl⟩ := ih rfl
    refine ⟨x, xs ++ [(us, d)], ?_, ?_, ?_⟩
    · intro y hy
      rw [← List.cons_append, List.mem_append, List.mem_singleton] at hy
      rcases hy with hy | rfl
      · exact hall y hy
      · exact hd
    · rw [joined_append, ← List.append_assoc]
      simp [joined]
    · rw [List.foldl_append]
      rfl

/-! ## It is unambiguous -/

/-- The text of an operand ends in one place only, and is read in one way, if what is behind it is
allowed by `stop`. -/
def Definite (n : Nat) (stop : List (Token α) → Prop) (l : Level) : Prop :=
  ∀ {ts us : List (Token α)} {c d : Cond α} {r r' : List (Token α)}, ts.length ≤ n → Derives l ts c →
    Derives l us d → ts ++ r = us ++ r' → stop r → stop r' → ts = us ∧ c = d

/-- The next token is not the operator. -/
def Stops (sep : Token α) (r : List (Token α)) : Prop := r.head? ≠ some sep

/-- Operands that end in one place make lists of operands that do. -/
theorem joined_unique {n : Nat} {sep : Token α} {stop : List (Token α) → Prop} {l : Level}
    (hdef : Definite n stop l) (hsep : ∀ r, stop (sep :: r)) {r r' : List (Token α)}
    (hr : Stops sep r ∧ stop r) (hr' : Stops sep r' ∧ stop r') {x y : Item α} {xs ys : List (Item α)}
    (hxs : ∀ z ∈ x :: xs, Derives l z.1 z.2) (hys : ∀ z ∈ y :: ys, Derives l z.1 z.2)
    (hlen : (x.1 ++ joined sep xs).length ≤ n)
    (heq : x.1 ++ joined sep xs ++ r = y.1 ++ joined sep ys ++ r') : x = y ∧ xs = ys := by
  have hbehind : ∀ (zs : List (Item α)) {t : List (Token α)}, stop t → stop (joined sep zs ++ t) := by
    intro zs t ht
    cases zs with
    | nil => exact ht
    | cons z zs => exact hsep _
  induction xs generalizing x y ys with
  | nil =>
    rw [List.append_assoc, List.append_assoc] at heq
    have hlen' : x.1.length ≤ n := by
      rw [List.length_append] at hlen
      omega
    obtain ⟨htext, hcond⟩ := hdef hlen' (hxs x List.mem_cons_self) (hys y List.mem_cons_self) heq
      (hbehind [] hr.2) (hbehind ys hr'.2)
    refine ⟨Prod.ext htext hcond, ?_⟩
    cases ys with
    | nil => rfl
    | cons z zs =>
      rw [htext] at heq
      have hrest : r = sep :: (z.1 ++ joined sep zs ++ r') := by
        simpa [joined] using List.append_cancel_left heq
      exact absurd (by rw [hrest]; rfl) hr.1
  | cons x' xs ih =>
    rw [List.append_assoc, List.append_assoc] at heq
    have hlen' : x.1.length ≤ n := by
      rw [List.length_append] at hlen
      omega
    obtain ⟨htext, hcond⟩ := hdef hlen' (hxs x List.mem_cons_self) (hys y List.mem_cons_self) heq
      (hbehind (x' :: xs) hr.2) (hbehind ys hr'.2)
    rw [htext] at heq
    have hrest : joined sep (x' :: xs) ++ r = joined sep ys ++ r' := List.append_cancel_left heq
    cases ys with
    | nil =>
      have hrest' : r' = sep :: (x'.1 ++ joined sep xs ++ r) := by
        simpa [joined] using hrest.symm
      exact absurd (by rw [hrest']; rfl) hr'.1
    | cons y' ys =>
      have hinner : x'.1 ++ joined sep xs ++ r = y'.1 ++ joined sep ys ++ r' := by
        simpa [joined] using hrest
      have hshort : (x'.1 ++ joined sep xs).length ≤ n := by
        have hcons : (joined sep (x' :: xs)).length = (x'.1 ++ joined sep xs).length + 1 := by
          simp [joined]
        rw [List.length_append, hcons] at hlen
        omega
      obtain ⟨rfl, rfl⟩ := ih (fun z hz => hxs z (List.mem_cons_of_mem _ hz))
        (fun z hz => hys z (List.mem_cons_of_mem _ hz)) hshort hinner
      exact ⟨Prod.ext htext hcond, rfl⟩

theorem definite_term {n : Nat} (h : Definite (α := α) n (fun _ => True) .factor) :
    Definite (α := α) n (Stops .and) .term := by
  intro ts us c d r r' hlen hc hd heq hr hr'
  obtain ⟨x, xs, hxs, rfl, rfl⟩ := hc.factors
  obtain ⟨y, ys, hys, rfl, rfl⟩ := hd.factors
  obtain ⟨rfl, rfl⟩ := joined_unique h (fun _ => trivial) ⟨hr, trivial⟩ ⟨hr', trivial⟩ hxs hys hlen heq
  exact ⟨rfl, rfl⟩

theorem definite_whole {n : Nat} (h : Definite (α := α) n (Stops .and) .term) :
    Definite (α := α) n (fun r => Stops .or r ∧ Stops .and r) .whole := by
  intro ts us c d r r' hlen hc hd heq hr hr'
  obtain ⟨x, xs, hxs, rfl, rfl⟩ := hc.terms
  obtain ⟨y, ys, hys, rfl, rfl⟩ := hd.terms
  obtain ⟨rfl, rfl⟩ := joined_unique h (fun _ => by simp [Stops]) hr hr' hxs hys hlen heq
  exact ⟨rfl, rfl⟩

/-- A factor ends where it ends, whatever is behind it. -/
theorem definite_factor (n : Nat) : Definite (α := α) n (fun _ => True) .factor := by
  induction n with
  | zero =>
    intro ts us c d r r' hlen hc
    cases hc <;> simp at hlen
  | succ n ih =>
    intro ts us c d r r' hlen hc hd heq _ _
    cases hc with
    | atom a =>
      cases hd with
      | atom b =>
        obtain ⟨hab, -⟩ := List.cons.inj heq
        rw [hab, Token.atom.inj hab]
        exact ⟨rfl, rfl⟩
      | parens => cases (List.cons.inj heq).1
      | not => cases (List.cons.inj heq).1
    | not hc =>
      cases hd with
      | atom b => cases (List.cons.inj heq).1
      | parens => cases (List.cons.inj heq).1
      | not hd =>
        rw [List.length_cons] at hlen
        obtain ⟨rfl, rfl⟩ := ih (by omega) hc hd (List.cons.inj heq).2 trivial trivial
        exact ⟨rfl, rfl⟩
    | @parens ts _ hc =>
      cases hd with
      | atom b => cases (List.cons.inj heq).1
      | not => cases (List.cons.inj heq).1
      | @parens us _ hd =>
        have hinner : ts ++ .right :: r = us ++ .right :: r' := by
          have htail := (List.cons.inj heq).2
          simpa using htail
        simp only [List.length_cons, List.length_append] at hlen
        have hstop : ∀ t : List (Token α), Stops .or (.right :: t) ∧ Stops .and (.right :: t) := by
          intro t
          simp [Stops]
        obtain ⟨rfl, rfl⟩ := definite_whole (definite_term ih) (by omega) hc hd hinner (hstop r)
          (hstop r')
        exact ⟨rfl, rfl⟩

theorem Derives.unique {ts : List (Token α)} {c d : Cond α} (hc : Derives .whole ts c)
    (hd : Derives .whole ts d) : c = d := by
  have hstop : Stops .or ([] : List (Token α)) ∧ Stops .and ([] : List (Token α)) := by simp [Stops]
  exact (definite_whole (definite_term (definite_factor ts.length)) (Nat.le_refl _) hc hd rfl hstop hstop).2

/-! ## An `AND` behind a text -/

/-- The operand before the last `OR` that is outside of all parentheses. -/
def Leading (ts : List (Token α)) (d : Cond α) : Prop :=
  ∃ (us vs : List (Token α)) (c : Cond α), ts = us ++ .or :: vs ∧ Derives .whole us d ∧ Derives .term vs c

theorem Leading.unique {ts : List (Token α)} {d d' : Cond α} (h : Leading ts d) (h' : Leading ts d') :
    d = d' := by
  obtain ⟨us, vs, c, rfl, hd, hc⟩ := h
  obtain ⟨us', vs', c', heq, hd', hc'⟩ := h'
  have hwhole : Derives .whole (us ++ .or :: vs) (d'.or c') := by
    rw [heq]
    exact .or hd' hc'
  exact (Cond.or.inj ((Derives.or hd hc).unique hwhole)).1

theorem not_leading {ts : List (Token α)} {c d : Cond α} (h : Derives .term ts c) : ¬Leading ts d := by
  rintro ⟨us, vs, c', heq, hd, hc'⟩
  obtain ⟨y, ys, hys, rfl, -⟩ := hd.terms
  have hall : ∀ z ∈ y :: (ys ++ [(vs, c')]), Derives .term z.1 z.2 := by
    intro z hz
    rw [← List.cons_append, List.mem_append, List.mem_singleton] at hz
    rcases hz with hz | rfl
    · exact hys z hz
    · exact hc'
  have hone : ∀ z ∈ [(ts, c)], Derives .term z.1 z.2 := by
    intro z hz
    rw [List.mem_singleton.mp hz]
    exact h
  have htext : ts ++ joined .or [] ++ [] = y.1 ++ joined .or (ys ++ [(vs, c')]) ++ [] := by
    rw [heq, joined_append]
    simp [joined]
  have hstop : Stops .or ([] : List (Token α)) ∧ Stops .and ([] : List (Token α)) := by simp [Stops]
  obtain ⟨-, hnil⟩ := joined_unique (definite_term (definite_factor _)) (fun _ => by simp [Stops]) hstop
    hstop hone hall (Nat.le_refl _) htext
  exact absurd hnil (by simp)

theorem derives_and {ts : List (Token α)} {e : Cond α} (he : Derives .whole ts e) (a : α) :
    (Derives .whole (ts ++ [.and, .atom a]) (e.and (.atom a)) ∧ ∀ d, ¬Leading ts d) ∨
      ∃ d c, Leading ts d ∧ e = d.or c ∧
        Derives .whole (ts ++ [.and, .atom a]) (d.or (c.and (.atom a))) := by
  cases he with
  | term he =>
    left
    exact ⟨.term (.and he (.atom a)), fun d => not_leading he⟩
  | @or us vs d c hd hc =>
    right
    refine ⟨d, c, ⟨us, vs, c, rfl, hd, hc⟩, rfl, ?_⟩
    have hbehind := Derives.or hd (Derives.and hc (.atom a))
    rwa [List.append_assoc, List.cons_append]

/-- Whatever is read from the text with the `AND` behind it: it is satisfied as the conjunction is, if
and only if the atom is true, or what stands before the last `OR` is not. -/
theorem satisfied_and_iff {ts : List (Token α)} {a : α} {c e : Cond α} (he : Derives .whole ts e)
    (hc : Derives .whole (ts ++ [.and, .atom a]) c) (val : α → Option Bool) :
    (c.Satisfied val ↔ e.Satisfied val ∧ val a = some true) ↔
      (val a = some true ∨ ∀ d, Leading ts d → ¬d.Satisfied val) := by
  have hatom : (Cond.atom a).Satisfied val ↔ val a = some true := Iff.rfl
  rcases derives_and he a with ⟨hderives, hnone⟩ | ⟨d, k, hlead, rfl, hderives⟩
  · rw [hc.unique hderives, satisfied_and, hatom]
    exact iff_of_true Iff.rfl (.inr fun d hd => absurd hd (hnone d))
  · have honly : (∀ d', Leading ts d' → ¬d'.Satisfied val) ↔ ¬d.Satisfied val := by
      constructor
      · intro h
        exact h d hlead
      · intro h d' hd'
        rw [hd'.unique hlead]
        exact h
    rw [hc.unique hderives, satisfied_or, satisfied_or, satisfied_and, hatom, honly]
    by_cases ha : val a = some true
    · simp only [ha, and_true, true_or]
    · simp only [ha, and_false, or_false, false_or, iff_false]

end Condition
