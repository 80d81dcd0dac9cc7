import Mathlib.Tactic.Common

/-!
# Searching for a part of a list

`search s l` is where `s` begins in `l` for the first time, or the length of `l` if it does not occur.
-/

namespace Subword

variable {α : Type}

/-- `s` is in `l` from position `i` on. -/
def Occurs (s l : List α) (i : Nat) : Prop := i + s.length ≤ l.length ∧ (l.drop i).take s.length = s

/-- The first position from `p` on where `s` is in `l`. -/
def First (s l : List α) (p i : Nat) : Prop :=
  p ≤ i ∧ Occurs s l i ∧ ∀ j < i, p ≤ j → ¬Occurs s l j

section

variable {s l : List α} {p i : Nat}

/-- In the part of `l` from `p` on that is `n` long. -/
theorem occurs_part {n : Nat} (hn : p + n ≤ l.length) :
    Occurs s ((l.drop p).take n) i ↔ i + s.length ≤ n ∧ Occurs s l (p + i) := by
  have hlen : ((l.drop p).take n).length = n := by
    rw [List.length_take, List.length_drop]
    omega
  unfold Occurs
  rw [hlen]
  constructor
  · rintro ⟨hle, htake⟩
    rw [List.drop_take, List.take_take, Nat.min_eq_left (by omega), List.drop_drop] at htake
    exact ⟨hle, by omega, htake⟩
  · rintro ⟨hle, -, htake⟩
    rw [List.drop_take, List.take_take, Nat.min_eq_left (by omega), List.drop_drop]
    exact ⟨hle, htake⟩

theorem occurs_zero {a : α} : Occurs s (a :: l) 0 ↔ s <+: a :: l := by
  rw [List.prefix_iff_eq_take]
  constructor
  · rintro ⟨-, htake⟩
    exact htake.symm
  · intro htake
    refine ⟨?_, htake.symm⟩
    have hlen := congrArg List.length htake
    rw [List.length_take] at hlen
    omega

theorem occurs_succ {a : α} : Occurs s (a :: l) (i + 1) ↔ Occurs s l i := by
  unfold Occurs
  rw [List.length_cons, List.drop_succ_cons]
  have hle : i + 1 + s.length ≤ l.length + 1 ↔ i + s.length ≤ l.length := by omega
  rw [hle]

end

variable [DecidableEq α]

instance (s l : List α) (i : Nat) : Decidable (Occurs s l i) := inferInstanceAs (Decidable (_ ∧ _))

instance (s l : List α) (p i : Nat) : Decidable (First s l p i) :=
  inferInstanceAs (Decidable (_ ∧ _ ∧ ∀ j < i, p ≤ j → ¬Occurs s l j))

def search (s : List α) : List α → Nat
  | [] => 0
  | a :: l => if s <+: a :: l then 0 else search s l + 1

/-- The search finds the first occurrence, or there is none. -/
theorem search_spec {s : List α} (hs : s ≠ []) (l : List α) :
    First s l 0 (search s l) ∨ search s l = l.length ∧ ∀ j, ¬Occurs s l j := by
  have hpos : 0 < s.length := List.length_pos_iff.mpr hs
  induction l with
  | nil =>
    right
    refine ⟨rfl, ?_⟩
    rintro j ⟨hle, -⟩
    rw [List.length_nil] at hle
    omega
  | cons a l ih =>
    by_cases hfront : s <+: a :: l
    · left
      rw [search, if_pos hfront]
      exact ⟨Nat.le_refl 0, occurs_zero.mpr hfront, fun j hj => absurd hj (Nat.not_lt_zero j)⟩
    · have hzero : ¬Occurs s (a :: l) 0 := fun h => hfront (occurs_zero.mp h)
      rw [search, if_neg hfront]
      rcases ih with ⟨-, hfound, hmin⟩ | ⟨hlen, hnone⟩
      · left
        refine ⟨Nat.zero_le _, occurs_succ.mpr hfound, ?_⟩
        intro j hj _
        obtain _ | j := j
        · exact hzero
        · rw [occurs_succ]
          exact hmin j (by omega) (Nat.zero_le j)
      · right
        refine ⟨by rw [hlen, List.length_cons], ?_⟩
        intro j
        obtain _ | j := j
        · exact hzero
        · rw [occurs_succ]
          exact hnone j

end Subword
