import Mathlib.Algebra.Order.Group.Nat
import Mathlib.Data.List.Basic
import Mathlib.Tactic.Common

/-!
# Loops with a counter of fixed width

`for ( i = 0; i < n; ++i )` with a counter of `w` bits, which starts anew at `2 ^ w`.  The body goes
on with another state or returns.  A bound below `2 ^ w` is reached and the loop is a fold over the
numbers below it; with any other bound the loop only ends where its body returns.
-/

namespace Counter

variable {α σ ρ : Type}

/-- The loop from `i` on, for as many rounds as there is fuel. -/
def loop (w n : Nat) (body : Nat → σ → Except ρ σ) : Nat → Nat → σ → Option (Except ρ σ)
  | 0, _, _ => none
  | fuel + 1, i, s =>
    if i < n then
      match body i s with
      | .error r => some (.error r)
      | .ok s' => loop w n body fuel ((i + 1) % 2 ^ w) s'
    else some (.ok s)

/-- What comes out after enough rounds. -/
def Gives (f : Nat → Option α) (a : α) : Prop := ∃ fuel, f fuel = some a

theorem Gives.map {β : Type} {f : Nat → Option α} {a : α} (h : Gives f a) (g : α → β) :
    Gives (fun fuel => (f fuel).map g) (g a) := by
  obtain ⟨fuel, h⟩ := h
  exact ⟨fuel, by simp [h]⟩

/-- What comes out of a function of the result. -/
theorem Gives.of_map {β : Type} {f : Nat → Option α} {g : α → β} {b : β}
    (h : Gives (fun fuel => (f fuel).map g) b) : ∃ a, Gives f a ∧ g a = b := by
  obtain ⟨fuel, h⟩ := h
  obtain ⟨a, ha, hg⟩ := Option.map_eq_some_iff.mp h
  exact ⟨a, ⟨fuel, ha⟩, hg⟩

variable {w n : Nat} {body : Nat → σ → Except ρ σ}

/-- More fuel changes nothing. -/
theorem loop_succ {fuel i : Nat} {s : σ} {r : Except ρ σ} (h : loop w n body fuel i s = some r) :
    loop w n body (fuel + 1) i s = some r := by
  induction fuel generalizing i s with
  | zero => simp [loop] at h
  | succ fuel ih =>
    rw [loop] at h ⊢
    by_cases hi : i < n
    · rw [if_pos hi] at h ⊢
      cases hbody : body i s with
      | error r' => simpa [hbody] using h
      | ok s' =>
        simp only [hbody] at h ⊢
        exact ih h
    · rw [if_neg hi] at h ⊢
      exact h

theorem loop_add {fuel i : Nat} {s : σ} {r : Except ρ σ} (h : loop w n body fuel i s = some r) (k : Nat) :
    loop w n body (fuel + k) i s = some r := by
  induction k with
  | zero => exact h
  | succ k ih => exact loop_succ ih

/-- What comes out does not depend on the fuel. -/
theorem loop_unique {i : Nat} {s : σ} {r r' : Except ρ σ} (h : Gives (loop w n body · i s) r)
    (h' : Gives (loop w n body · i s) r') : r = r' := by
  obtain ⟨fuel, h⟩ := h
  obtain ⟨fuel', h'⟩ := h'
  have hboth := loop_add h fuel'
  rw [Nat.add_comm, loop_add h' fuel] at hboth
  exact (Option.some.inj hboth).symm

theorem map_loop_unique {β : Type} {g : Except ρ σ → β} {i : Nat} {s : σ} {b b' : β}
    (h : Gives (fun fuel => (loop w n body fuel i s).map g) b)
    (h' : Gives (fun fuel => (loop w n body fuel i s).map g) b') : b = b' := by
  obtain ⟨r, hr, rfl⟩ := h.of_map
  obtain ⟨r', hr', rfl⟩ := h'.of_map
  rw [loop_unique hr hr']

/-- A bound that the counter reaches. -/
theorem loop_range (hn : n < 2 ^ w) {k i : Nat} (hi : i + k = n) (s : σ) :
    loop w n body (k + 1) i s = some ((List.range' i k).foldlM (fun s i => body i s) s) := by
  induction k generalizing i s with
  | zero =>
    rw [loop, if_neg (by omega)]
    rfl
  | succ k ih =>
    rw [loop, if_pos (by omega), List.range'_succ, List.foldlM_cons]
    cases hbody : body i s with
    | error r => rfl
    | ok s' =>
      have hnext : (i + 1) % 2 ^ w = i + 1 := Nat.mod_eq_of_lt (by omega)
      rw [hnext]
      exact ih (by omega) s'

theorem gives_loop (hn : n < 2 ^ w) (s : σ) :
    Gives (loop w n body · 0 s) ((List.range n).foldlM (fun s i => body i s) s) := by
  have h := @loop_range σ ρ w n body hn n 0 (by omega) s
  rw [← List.range_eq_range'] at h
  exact ⟨n + 1, h⟩

/-- One round more. -/
theorem foldlM_succ_ok {k : Nat} {s s' : σ}
    (h : (List.range k).foldlM (fun s i => body i s) s = .ok s') :
    (List.range (k + 1)).foldlM (fun s i => body i s) s = body k s' := by
  rw [List.range_succ, List.foldlM_append, h]
  show List.foldlM (fun s i => body i s) s' [k] = body k s'
  rw [List.foldlM_cons]
  cases body k s' with
  | error r => rfl
  | ok s'' => rfl

/-- No round more. -/
theorem foldlM_succ_error {k : Nat} {s : σ} {r : ρ}
    (h : (List.range k).foldlM (fun s i => body i s) s = .error r) :
    (List.range (k + 1)).foldlM (fun s i => body i s) s = .error r := by
  rw [List.range_succ, List.foldlM_append, h]
  rfl

/-- A bound that the counter does not reach, and a body that never returns. -/
theorem loop_diverges (hn : 2 ^ w ≤ n) (hbody : ∀ i s, ∃ s', body i s = .ok s') (fuel : Nat) {i : Nat}
    (hi : i < 2 ^ w) (s : σ) : loop w n body fuel i s = none := by
  induction fuel generalizing i s with
  | zero => rfl
  | succ fuel ih =>
    obtain ⟨s', hs'⟩ := hbody i s
    rw [loop, if_pos (by omega), hs']
    exact ih (Nat.mod_lt _ (Nat.two_pow_pos w)) s'

/-! ## Two kinds of bodies -/

/-- A body that returns where a test fails. -/
def test (t : Nat → Bool) (i : Nat) (_ : Unit) : Except Bool Unit := if t i then .ok () else .error false

/-- A body that fills a list. -/
def fill (f : Nat → α) (i : Nat) (xs : List α) : Except ρ (List α) := .ok (xs.set i (f i))

theorem foldlM_test (t : Nat → Bool) (is : List Nat) :
    is.foldlM (fun s i => test t i s) () = if is.all t then .ok () else .error false := by
  induction is with
  | nil => rfl
  | cons i is ih =>
    rw [List.foldlM_cons, List.all_cons]
    cases ht : t i with
    | false => simp [test, ht, bind, Except.bind]
    | true =>
      simp only [Bool.true_and, ← ih]
      simp [test, ht, bind, Except.bind]

theorem foldlM_fill (f : Nat → α) (is : List Nat) (xs : List α) :
    is.foldlM (fun s i => (fill f i s : Except ρ (List α))) xs
      = .ok (is.foldl (fun xs i => xs.set i (f i)) xs) := by
  induction is generalizing xs with
  | nil => rfl
  | cons i is ih => exact ih (xs.set i (f i))

theorem foldl_set (f : Nat → α) (n : Nat) (xs : List α) (hn : n ≤ xs.length) :
    (List.range n).foldl (fun xs i => xs.set i (f i)) xs = (List.range n).map f ++ xs.drop n := by
  induction n with
  | zero => simp
  | succ n ih =>
    have hdrop : xs.drop n = xs[n] :: xs.drop (n + 1) := List.drop_eq_getElem_cons (by omega)
    have hset : (xs.drop n).set 0 (f n) = f n :: xs.drop (n + 1) := by
      rw [hdrop, List.set_cons_zero]
    rw [List.range_succ, List.foldl_append, ih (by omega)]
    simpa using hset

/-- A list that is filled from its beginning to its end. -/
theorem gives_fill (hn : n < 2 ^ w) (f : Nat → α) (x : α) :
    Gives (loop w n (fill f : Nat → List α → Except ρ (List α)) · 0 (List.replicate n x))
      (.ok ((List.range n).map f)) := by
  have h := @gives_loop (List α) ρ w n (fill f) hn (List.replicate n x)
  rw [foldlM_fill, foldl_set f n _ (by simp)] at h
  simpa using h

theorem gives_test (hn : n < 2 ^ w) (t : Nat → Bool) :
    Gives (loop w n (test t) · 0 ()) (if (List.range n).all t then .ok () else .error false) := by
  have h := @gives_loop Unit Bool w n (test t) hn ()
  rwa [foldlM_test] at h

end Counter
