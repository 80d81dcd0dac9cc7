import Mathlib.Data.Nat.Digits.Lemmas
import Mathlib.Tactic.Common

/-!
# Numerals

The digits of a number in a base, the most significant one first.  Zero has one digit.
-/

namespace Numeral

def numeral (b n : Nat) : List Nat := if n = 0 then [0] else (b.digits n).reverse

variable {b n : Nat}

theorem numeral_of_lt (hn : n < b) : numeral b n = [n] := by
  unfold numeral
  by_cases hzero : n = 0
  · rw [if_pos hzero, hzero]
  · rw [if_neg hzero, Nat.digits_of_lt b n hzero hn, List.reverse_singleton]

theorem numeral_of_le (hb : 1 < b) (hn : b ≤ n) : numeral b n = numeral b (n / b) ++ [n % b] := by
  have hpos : 0 < n / b := Nat.div_pos hn (by omega)
  unfold numeral
  rw [if_neg (by omega), if_neg (by omega), Nat.digits_def' hb (by omega), List.reverse_cons]

/-- Induction over the digits, the last one taken off. -/
theorem induct (hb : 1 < b) {motive : Nat → List Nat → Prop} (digit : ∀ n, n < b → motive n [n])
    (snoc : ∀ n, b ≤ n → motive (n / b) (numeral b (n / b)) → motive n (numeral b (n / b) ++ [n % b])) (n : Nat) :
    motive n (numeral b n) := by
  induction n using Nat.strongRecOn with
  | ind n ih =>
    by_cases hn : n < b
    · rw [numeral_of_lt hn]
      exact digit n hn
    · have hle : b ≤ n := Nat.not_lt.mp hn
      rw [numeral_of_le hb hle]
      exact snoc n hle (ih (n / b) (Nat.div_lt_self (by omega) hb))

theorem lt_of_mem (hb : 1 < b) {d : Nat} (hd : d ∈ numeral b n) : d < b := by
  unfold numeral at hd
  split_ifs at hd
  · rw [List.mem_singleton.mp hd]
    omega
  · exact Nat.digits_lt_base hb (List.mem_reverse.mp hd)

theorem ne_nil (b n : Nat) : numeral b n ≠ [] := by
  unfold numeral
  split_ifs with hzero
  · exact List.cons_ne_nil 0 []
  · rw [ne_eq, List.reverse_eq_nil_iff, Nat.digits_eq_nil_iff_eq_zero]
    exact hzero

end Numeral
