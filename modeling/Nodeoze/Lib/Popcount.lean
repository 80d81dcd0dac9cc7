import Mathlib.Data.Nat.Digits.Lemmas
import Mathlib.Algebra.Order.BigOperators.Group.List
import Mathlib.Tactic.Ring
import Mathlib.Tactic.Positivity
import Mathlib.Tactic.Common
import Mathlib.Tactic.IntervalCases

/-!
# Counting the bits of a word

The number of bits of a word of `n` bytes that are set, counted in all bytes at once: first in pairs
of bits, then in nibbles, then in bytes, whose counts a multiplication adds up in the topmost byte.
A word is taken apart into its bytes, least significant first, and each step is shown to act on
every byte alone.
-/

namespace Popcount

/-- The word of some bytes. -/
abbrev word (ds : List Nat) : Nat := Nat.ofDigits 256 ds

/-- The word with the same byte everywhere. -/
abbrev repeated (n m : Nat) : Nat := word (List.replicate n m)

/-- How many of the lowest `n` bits are set. -/
def weight (n x : Nat) : Nat := (List.range n).countP x.testBit

/-! ## Bytes of words -/

theorem word_cons (d : Nat) (ds : List Nat) : word (d :: ds) = d + 256 * word ds := by
  simp [word, Nat.ofDigits_cons]

theorem repeated_succ (n m : Nat) : repeated (n + 1) m = m + 256 * repeated n m :=
  word_cons m (List.replicate n m)

theorem and_bytes {a c : Nat} (ha : a < 256) (hc : c < 256) (b d : Nat) :
    (a + 256 * b) &&& (c + 256 * d) = (a &&& c) + 256 * (b &&& d) := by
  have hlow : ((a + 256 * b) &&& (c + 256 * d)) % 2 ^ 8 = a &&& c := by
    rw [Nat.and_mod_two_pow]
    congr 1 <;> omega
  have hhigh : ((a + 256 * b) &&& (c + 256 * d)) / 2 ^ 8 = b &&& d := by
    rw [Nat.and_div_two_pow]
    congr 1 <;> omega
  rw [← hlow, ← hhigh]
  omega

/-- Only the bits that a mask has matter. -/
theorem and_mask {x m k : Nat} (hm : m < 2 ^ k) : x &&& m = (x % 2 ^ k) &&& m := by
  have hlt : (x &&& m) < 2 ^ k := Nat.lt_of_le_of_lt Nat.and_le_right hm
  rw [← Nat.mod_eq_of_lt hlt, Nat.and_mod_two_pow, Nat.mod_eq_of_lt hm]

/-- What is shifted in from the next byte is masked out. -/
theorem word_shift_and {k m : Nat} (hk : k ≤ 8) (hm : m < 2 ^ (8 - k)) (ds : List Nat)
    (hds : ∀ d ∈ ds, d < 256) :
    (word ds >>> k) &&& repeated ds.length m = word (ds.map fun d => (d >>> k) &&& m) := by
  induction ds with
  | nil => simp [word, repeated]
  | cons d ds ih =>
    have hd : d < 256 := hds d (by simp)
    have hpow : 2 ^ (8 - k) * 2 ^ k = 256 := by
      rw [← pow_add, Nat.sub_add_cancel hk]
      norm_num
    let r := word ds
    have hsplit : (d + 256 * r) >>> k
        = (d >>> k + 2 ^ (8 - k) * (r % 2 ^ k)) + 256 * (r >>> k) := by
      simp only [Nat.shiftRight_eq_div_pow]
      interval_cases k <;> omega
    have hlow : d >>> k + 2 ^ (8 - k) * (r % 2 ^ k) < 256 := by
      simp only [Nat.shiftRight_eq_div_pow]
      interval_cases k <;> omega
    have hmask : (d >>> k + 2 ^ (8 - k) * (r % 2 ^ k)) &&& m = (d >>> k) &&& m := by
      rw [and_mask hm, Nat.add_mul_mod_self_left, ← and_mask hm]
    have hm' : m < 256 := by
      have : 2 ^ (8 - k) ≤ 2 ^ 8 := Nat.pow_le_pow_right (by omega) (by omega)
      omega
    rw [word_cons, List.length_cons, repeated_succ, List.map_cons, word_cons, hsplit,
      and_bytes hlow hm', hmask, ih fun d' hd' => hds d' (by simp [hd'])]

theorem word_and {m : Nat} (hm : m < 256) (ds : List Nat) (hds : ∀ d ∈ ds, d < 256) :
    word ds &&& repeated ds.length m = word (ds.map fun d => d &&& m) :=
  word_shift_and (Nat.zero_le 8) hm ds hds

theorem word_add (f g : Nat → Nat) (ds : List Nat) :
    word (ds.map f) + word (ds.map g) = word (ds.map fun d => f d + g d) := by
  induction ds with
  | nil => rfl
  | cons d ds ih =>
    simp only [List.map_cons, word_cons, ← ih]
    omega

theorem word_sub {f g : Nat → Nat} (h : ∀ d, g d ≤ f d) (ds : List Nat) :
    word (ds.map f) - word (ds.map g) = word (ds.map fun d => f d - g d) := by
  have hadd := word_add (fun d => f d - g d) g ds
  have hf : (fun d => f d - g d + g d) = f := by
    funext d
    exact Nat.sub_add_cancel (h d)
  rw [hf] at hadd
  omega

/-- Adding to every byte its upper nibble; what the next byte lends goes to the upper nibbles. -/
theorem word_nibbles (ds : List Nat) (hds : ∀ d ∈ ds, d / 16 ≤ 4 ∧ d % 16 ≤ 4) :
    (word ds + word ds >>> 4) &&& repeated ds.length 15 = word (ds.map fun d => (d + d >>> 4) &&& 15) ∧
      word ds % 16 ≤ 4 := by
  induction ds with
  | nil => simp [word, repeated]
  | cons d ds ih =>
    obtain ⟨hrest, hnibble⟩ := ih fun d' hd' => hds d' (by simp [hd'])
    have hd := hds d (by simp)
    let r := word ds
    have hr : r % 16 ≤ 4 := hnibble
    have hsplit : d + 256 * r + (d + 256 * r) >>> 4
        = (d + d >>> 4 + 2 ^ 4 * (r % 16)) + 256 * (r + r >>> 4) := by
      simp only [Nat.shiftRight_eq_div_pow]
      omega
    have hlow : d + d >>> 4 + 2 ^ 4 * (r % 16) < 256 := by
      simp only [Nat.shiftRight_eq_div_pow]
      omega
    have hmask : (d + d >>> 4 + 2 ^ 4 * (r % 16)) &&& 15 = (d + d >>> 4) &&& 15 := by
      rw [and_mask (k := 4) (by decide), Nat.add_mul_mod_self_left, ← and_mask (by decide)]
    constructor
    · rw [word_cons, List.length_cons, repeated_succ, List.map_cons, word_cons, hsplit,
        and_bytes hlow (by decide), hmask, hrest]
    · rw [word_cons]
      omega

/-! ## Counting -/

/-- The counts of the pairs of bits. -/
def pairs (n x : Nat) : Nat := x - ((x >>> 1) &&& repeated n 0x55)

/-- The counts of the nibbles. -/
def nibbles (n x : Nat) : Nat :=
  (pairs n x &&& repeated n 0x33) + ((pairs n x >>> 2) &&& repeated n 0x33)

/-- The counts of the bytes. -/
def bytes (n x : Nat) : Nat := (nibbles n x + nibbles n x >>> 4) &&& repeated n 0x0F

/-- What becomes of one byte. -/
theorem bytes_byte {d : Nat} (hd : d < 256) :
    pairs 1 d < 256 ∧ nibbles 1 d / 16 ≤ 4 ∧ nibbles 1 d % 16 ≤ 4 ∧ bytes 1 d = weight 8 d ∧
      weight 8 d ≤ 8 := by
  have h : ∀ d : Fin 256, pairs 1 d < 256 ∧ nibbles 1 d / 16 ≤ 4 ∧ nibbles 1 d % 16 ≤ 4 ∧
      bytes 1 d = weight 8 d ∧ weight 8 d ≤ 8 := by decide +kernel
  exact h ⟨d, hd⟩

theorem pairs_word (ds : List Nat) (hds : ∀ d ∈ ds, d < 256) :
    pairs ds.length (word ds) = word (ds.map (pairs 1)) := by
  have hsub := @word_sub id (fun d => (d >>> 1) &&& 0x55)
    (fun d => Nat.le_trans Nat.and_le_left (Nat.shiftRight_le d 1)) ds
  rw [pairs, word_shift_and (by decide) (by decide) ds hds]
  rw [List.map_id] at hsub
  exact hsub

theorem nibbles_word (ds : List Nat) (hds : ∀ d ∈ ds, d < 256) :
    nibbles ds.length (word ds) = word (ds.map (nibbles 1)) := by
  have hpairs : ∀ p ∈ ds.map (pairs 1), p < 256 := by
    intro p hp
    obtain ⟨d, hd, rfl⟩ := List.mem_map.mp hp
    exact (bytes_byte (hds d hd)).1
  have hand := word_and (m := 0x33) (by decide) _ hpairs
  have hshift := word_shift_and (k := 2) (m := 0x33) (by decide) (by decide) _ hpairs
  rw [List.length_map, List.map_map] at hand hshift
  rw [nibbles, pairs_word ds hds, hand, hshift, word_add]
  rfl

theorem bytes_word (ds : List Nat) (hds : ∀ d ∈ ds, d < 256) :
    bytes ds.length (word ds) = word (ds.map (weight 8)) := by
  have hnibbles : ∀ p ∈ ds.map (nibbles 1), p / 16 ≤ 4 ∧ p % 16 ≤ 4 := by
    intro p hp
    obtain ⟨d, hd, rfl⟩ := List.mem_map.mp hp
    exact ⟨(bytes_byte (hds d hd)).2.1, (bytes_byte (hds d hd)).2.2.1⟩
  have hadd := (word_nibbles _ hnibbles).1
  rw [List.length_map, List.map_map] at hadd
  rw [bytes, nibbles_word ds hds, hadd]
  congr 1
  apply List.map_congr_left
  intro d hd
  exact (bytes_byte (hds d hd)).2.2.2.1

theorem exists_word (n : Nat) {x : Nat} (hx : x < 256 ^ n) :
    ∃ ds : List Nat, ds.length = n ∧ (∀ d ∈ ds, d < 256) ∧ word ds = x := by
  induction n generalizing x with
  | zero =>
    rw [pow_zero] at hx
    refine ⟨[], rfl, by simp, ?_⟩
    simp only [word, Nat.ofDigits_nil]
    omega
  | succ n ih =>
    rw [pow_succ] at hx
    obtain ⟨ds, hlength, hds, hword⟩ := @ih (x / 256) (by omega)
    refine ⟨x % 256 :: ds, by simp [hlength], ?_, ?_⟩
    · intro d hd
      rcases List.mem_cons.mp hd with rfl | hd
      · omega
      · exact hds d hd
    · rw [word_cons, hword]
      omega

theorem weight_add (n d x : Nat) (hd : d < 256) : weight (8 + n) (d + 256 * x) = weight 8 d + weight n x := by
  have hbits : ∀ i, (d + 256 * x).testBit i = if i < 8 then d.testBit i else x.testBit (i - 8) := by
    intro i
    rw [Nat.add_comm]
    exact Nat.testBit_two_pow_mul_add x (i := 8) hd i
  simp only [weight, List.range_add, List.countP_append, List.countP_map]
  congr 1
  · apply List.countP_congr
    intro i hi
    rw [hbits, if_pos (List.mem_range.mp hi)]
  · apply List.countP_congr
    intro i _
    simp [hbits]

theorem weight_word (ds : List Nat) (hds : ∀ d ∈ ds, d < 256) :
    weight (8 * ds.length) (word ds) = (ds.map (weight 8)).sum := by
  induction ds with
  | nil => rfl
  | cons d ds ih =>
    have hlength : 8 * (d :: ds).length = 8 + 8 * ds.length := by
      rw [List.length_cons]
      omega
    rw [hlength, word_cons, weight_add _ _ _ (hds d (by simp)), ih fun d' hd' => hds d' (by simp [hd'])]
    simp

/-- The running sums of a list. -/
def sums (a : Nat) : List Nat → List Nat
  | [] => []
  | c :: cs => (a + c) :: sums (a + c) cs

theorem repeated_succ_top (n : Nat) : repeated (n + 1) 1 = repeated n 1 + 256 ^ n := by
  rw [repeated, List.replicate_succ', word, Nat.ofDigits_append]
  simp [repeated, word]

/-- Without what goes beyond the topmost byte, the bytes of the product are the running sums. -/
theorem mul_repeated (cs : List Nat) (a : Nat) :
    word cs * repeated cs.length 1 + a * repeated cs.length 1 ≡ word (sums a cs) [MOD 256 ^ cs.length] := by
  induction cs generalizing a with
  | nil => simp [sums, word, repeated, Nat.ModEq]
  | cons c cs ih =>
    let n := cs.length
    have hstep : word (c :: cs) * repeated (n + 1) 1 + a * repeated (n + 1) 1
        = (a + c) + 256 * (word cs * repeated n 1 + (a + c) * repeated n 1)
          + 256 ^ (n + 1) * word cs := by
      have htop := repeated_succ_top n
      have hbottom := repeated_succ n 1
      calc word (c :: cs) * repeated (n + 1) 1 + a * repeated (n + 1) 1
        _ = (a + c) * repeated (n + 1) 1 + 256 * word cs * repeated (n + 1) 1 := by
          rw [word_cons]
          ring
        _ = (a + c) * (1 + 256 * repeated n 1) + 256 * word cs * (repeated n 1 + 256 ^ n) := by
          rw [← hbottom, ← htop]
        _ = _ := by ring
    have hrest := ((ih (a + c)).mul_left' 256).add_left (a + c)
    rw [← pow_succ'] at hrest
    rw [List.length_cons, sums, word_cons]
    rw [word_cons] at hstep
    rw [hstep]
    calc (a + c) + 256 * (word cs * repeated n 1 + (a + c) * repeated n 1) + 256 ^ (n + 1) * word cs
      _ ≡ (a + c) + 256 * (word cs * repeated n 1 + (a + c) * repeated n 1) [MOD 256 ^ (n + 1)] := by
        simp [Nat.ModEq]
      _ ≡ _ [MOD 256 ^ (n + 1)] := hrest

theorem length_sums (a : Nat) (cs : List Nat) : (sums a cs).length = cs.length := by
  induction cs generalizing a with
  | nil => rfl
  | cons c cs ih => simp [sums, ih]

theorem sums_append (a c : Nat) (cs : List Nat) : sums a (cs ++ [c]) = sums a cs ++ [a + cs.sum + c] := by
  induction cs generalizing a with
  | nil => simp [sums]
  | cons d cs ih => simp [sums, ih, Nat.add_assoc]

theorem sums_le (a : Nat) (cs : List Nat) : ∀ s ∈ sums a cs, s ≤ a + cs.sum := by
  induction cs generalizing a with
  | nil => simp [sums]
  | cons c cs ih =>
    intro s hs
    rw [List.sum_cons]
    rcases List.mem_cons.mp hs with rfl | hs
    · omega
    · have := ih (a + c) s hs
      omega

/-- The topmost byte of the product is the sum of all bytes. -/
theorem sum_of_mul {cs : List Nat} {n : Nat} (hlength : cs.length = n + 1) (hsum : cs.sum < 256) :
    word cs * repeated (n + 1) 1 % 256 ^ (n + 1) / 256 ^ n = cs.sum := by
  have hmul := mul_repeated cs 0
  rw [Nat.zero_mul, Nat.add_zero, hlength] at hmul
  have hlt : word (sums 0 cs) < 256 ^ (n + 1) := by
    have h := Nat.ofDigits_lt_base_pow_length (b := 256) (l := sums 0 cs) (by decide) fun s hs => by
      have := sums_le 0 cs s hs
      omega
    rwa [length_sums, hlength] at h
  rw [hmul, Nat.mod_eq_of_lt hlt]
  obtain ⟨cs', c, rfl⟩ : ∃ cs' c, cs = cs' ++ [c] :=
    List.eq_nil_or_concat' cs |>.resolve_left (by rintro rfl; simp at hlength)
  have hlength' : (sums 0 cs').length = n := by
    rw [length_sums]
    simpa using hlength
  have hlow : word (sums 0 cs') < 256 ^ n := by
    have h := Nat.ofDigits_lt_base_pow_length (b := 256) (l := sums 0 cs') (by decide) fun s hs => by
      have := sums_le 0 cs' s hs
      rw [List.sum_append] at hsum
      omega
    rwa [hlength'] at h
  rw [sums_append, word, Nat.ofDigits_append, hlength', Nat.ofDigits_singleton,
    Nat.add_mul_div_left _ _ (by positivity), Nat.div_eq_of_lt hlow]
  simp

/-- The bits of a word of 64 bits that are set. -/
theorem weight_eq {x : Nat} (hx : x < 2 ^ 64) :
    (bytes 8 x * repeated 8 1 % 2 ^ 64) >>> 56 = weight 64 x := by
  obtain ⟨ds, hlength, hds, rfl⟩ := exists_word 8 (by simpa using hx)
  have hcounts : (ds.map (weight 8)).sum < 256 := by
    have h := List.sum_le_card_nsmul (ds.map (weight 8)) 8 (by
      intro c hc
      obtain ⟨d, hd, rfl⟩ := List.mem_map.mp hc
      exact (bytes_byte (hds d hd)).2.2.2.2)
    rw [List.length_map, hlength] at h
    exact Nat.lt_of_le_of_lt h (by decide)
  have hweight := weight_word ds hds
  have hbytes := bytes_word ds hds
  rw [hlength] at hweight hbytes
  have htop := @sum_of_mul (ds.map (weight 8)) 7 (by simpa using hlength) hcounts
  rw [hbytes, Nat.shiftRight_eq_div_pow]
  exact htop.trans hweight.symm

end Popcount
