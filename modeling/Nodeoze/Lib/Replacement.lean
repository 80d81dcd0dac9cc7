import Nodeoze.Lib.Subword

/-!
# Replacing the occurrences of a part

`Replaced s r l l'` says that `l'` is `l` after one pass from left to right, in which `r` is put for each
occurrence of `s` that does not overlap one before it.  There is only one such `l'`.
-/

namespace Replacement

open Subword

variable {α : Type}

inductive Replaced (s r : List α) : List α → List α → Prop
  | rest {l : List α} (hnone : ∀ i, ¬Occurs s l i) : Replaced s r l l
  | next {l l' : List α} {i : Nat} (hfirst : First s l 0 i) (hrest : Replaced s r (l.drop (i + s.length)) l') :
    Replaced s r l (l.take i ++ (r ++ l'))

variable {s r l l' : List α} {p i j : Nat}

theorem first_unique (hi : First s l p i) (hj : First s l p j) : i = j := by
  obtain ⟨hpi, hoccursi, hmini⟩ := hi
  obtain ⟨hpj, hoccursj, hminj⟩ := hj
  by_contra hne
  rcases Nat.lt_or_gt_of_ne hne with hlt | hlt
  · exact hminj i hlt hpi hoccursi
  · exact hmini j hlt hpj hoccursj

theorem Replaced.unique {a b : List α} (ha : Replaced s r l a) (hb : Replaced s r l b) : a = b := by
  induction ha generalizing b with
  | rest hnone =>
    cases hb with
    | rest _ => rfl
    | next hfirst _ => exact absurd hfirst.2.1 (hnone _)
  | next hfirst _ ih =>
    cases hb with
    | rest hnone => exact absurd hfirst.2.1 (hnone _)
    | next hfirst' hrest' =>
      obtain rfl := first_unique hfirst hfirst'
      rw [ih hrest']

/-- What stands before the first occurrence stays. -/
theorem Replaced.cons {a : α} (hne : ¬s <+: a :: l) (h : Replaced s r l l') :
    Replaced s r (a :: l) (a :: l') := by
  have hzero : ¬Occurs s (a :: l) 0 := fun hoccurs => hne (occurs_zero.mp hoccurs)
  cases h with
  | rest hnone =>
    refine .rest fun i => ?_
    cases i with
    | zero => exact hzero
    | succ i =>
      rw [occurs_succ]
      exact hnone i
  | @next _ l' i hfirst hrest =>
    have hfirst' : First s (a :: l) 0 (i + 1) := by
      refine ⟨Nat.zero_le _, occurs_succ.mpr hfirst.2.1, ?_⟩
      intro j hj _
      cases j with
      | zero => exact hzero
      | succ j =>
        rw [occurs_succ]
        exact hfirst.2.2 j (by omega) (Nat.zero_le j)
    have hdrop : (a :: l).drop (i + 1 + s.length) = l.drop (i + s.length) := by
      rw [Nat.add_right_comm, List.drop_succ_cons]
    exact .next hfirst' (by rwa [hdrop])

/-- An occurrence at the front is replaced. -/
theorem Replaced.front (h : Replaced s r l l') : Replaced s r (s ++ l) (r ++ l') := by
  have hoccurs : Occurs s (s ++ l) 0 := by
    refine ⟨?_, ?_⟩
    · rw [List.length_append]
      omega
    · rw [List.drop_zero, List.take_left']
      rfl
  have hfirst : First s (s ++ l) 0 0 := ⟨Nat.le_refl 0, hoccurs, fun j hj => absurd hj (Nat.not_lt_zero j)⟩
  have hdrop : (s ++ l).drop (0 + s.length) = l := by
    rw [Nat.zero_add, List.drop_left']
    rfl
  exact .next hfirst (by rwa [hdrop])

end Replacement
