import Nodeoze.Database.Bitmap
import Nodeoze.Lib.Counter
import Nodeoze.Lib.Popcount
import Mathlib.Data.Set.Card

/-!
# Bit vectors as sets

`positions` is the set that a `bitmap` stands for.  The operators take two bitmaps word by word,
where a word past the end of the shorter one is zero; `count_bits_set` counts the bits of a word with
masks and a multiplication.

The loops over words count in an `unsigned int`, which 2^32 words or more are too many for: the
operators then never come to an end, unless a comparison finds a difference before.
-/

namespace Nodeoze.Database.Bitmap

open Counter (Gives)

/-- `bitmap( num_words )` -/
def ofSize (numWords : Nat) : Bitmap := ⟨List.replicate numWords 0#64⟩

/-- `( i < m_words.size() ) ? m_words[ i ] : 0ULL` -/
def word (b : Bitmap) (i : Nat) : BitVec 64 := if i < b.words.length then b.words.getD i 0#64 else 0#64

/-- `return bitmap( std::move( words ) )` -/
def moved : Except Bitmap (List (BitVec 64)) → Bitmap
  | .ok words => ⟨words⟩
  | .error r => r

/-- The operators `|`, `&` and `-`, whose loops fill a new vector. -/
def combine (f : BitVec 64 → BitVec 64 → BitVec 64) (a b : Bitmap) (fuel : Nat) : Option Bitmap :=
  let size := max a.words.length b.words.length
  (Counter.loop 32 size (Counter.fill fun i => f (a.word i) (b.word i)) fuel 0
    (List.replicate size 0#64)).map moved

/-- `operator|` -/
def or : Bitmap → Bitmap → Nat → Option Bitmap := combine fun x y => x ||| y

/-- `operator&` -/
def and : Bitmap → Bitmap → Nat → Option Bitmap := combine fun x y => x &&& y

/-- `operator-` -/
def sub : Bitmap → Bitmap → Nat → Option Bitmap := combine fun x y => x &&& ~~~y

/-- `return true` behind a loop -/
def verdict : Except Bool Unit → Bool
  | .ok () => true
  | .error r => r

/-- A loop that returns false where a test fails. -/
def checks (n : Nat) (t : Nat → Bool) (fuel : Nat) : Option Bool :=
  (Counter.loop 32 n (Counter.test t) fuel 0 ()).map verdict

/-- `operator==` -/
def equals (a b : Bitmap) : Nat → Option Bool :=
  if a.words.length > b.words.length then
    checks a.words.length fun i =>
      if i < b.words.length then a.words.getD i 0#64 == b.words.getD i 0#64
      else a.words.getD i 0#64 == 0#64
  else
    checks b.words.length fun i =>
      if i < a.words.length then a.words.getD i 0#64 == b.words.getD i 0#64
      else b.words.getD i 0#64 == 0#64

/-- `operator<=` -/
def le (a b : Bitmap) : Nat → Option Bool :=
  checks a.words.length fun i => a.words.getD i 0#64 == (a.words.getD i 0#64 &&& b.word i)

/-- `operator>=` -/
def ge (a b : Bitmap) : Nat → Option Bool := b.le a

/-- `bitmap::disjoint` -/
def disjoint (lhs rhs : Bitmap) : Nat → Option Bool :=
  checks (max lhs.words.length rhs.words.length) fun i => (lhs.word i &&& rhs.word i) == 0#64

/-- `bitmap::count_bits_set` -/
def countBitsSet (bset : BitVec 64) : Nat :=
  let bset := bset - ((bset >>> 1) &&& 0x5555555555555555#64)
  let bset := (bset &&& 0x3333333333333333#64) + ((bset >>> 2) &&& 0x3333333333333333#64)
  ((((bset + (bset >>> 4)) &&& 0x0F0F0F0F0F0F0F0F#64) * 0x0101010101010101#64) >>> 56).toNat

/-- `bitmap::hamming_weight`, which adds in a `size_t` -/
def hammingWeight (b : Bitmap) : Nat :=
  b.words.foldl (fun bcount word => (bcount + countBitsSet word) % 2 ^ 64) 0

/-- `bitmap::empty` -/
def isEmpty (b : Bitmap) : Bool := b.hammingWeight == 0

/-! ## The set -/

/-- The set that a bitmap stands for. -/
def positions (b : Bitmap) : Set Nat := { p | b.isBitSet p = true }

theorem word_eq_zero {b : Bitmap} {i : Nat} (h : b.words.length ≤ i) : b.word i = 0#64 :=
  if_neg (by omega)

theorem word_eq_getD (b : Bitmap) (i : Nat) : b.word i = b.words.getD i 0#64 := by
  by_cases h : i < b.words.length
  · exact if_pos h
  · rw [word_eq_zero (by omega), List.getD_eq_getElem?_getD, List.getElem?_eq_none (by omega)]
    rfl

theorem mem_positions (b : Bitmap) (p : Nat) :
    p ∈ b.positions ↔ (b.word (p / bitwordSize)).getLsbD (p % bitwordSize) = true := by
  rw [word_eq_getD]
  unfold positions
  rw [Set.mem_ofPred_eq, isBitSet_eq, bitAt]

/-- Words are compared by their bits. -/
theorem forall_word_iff (P : Bool → Bool → Prop) (a b : Bitmap) :
    (∀ i k, k < 64 → P ((a.word i).getLsbD k) ((b.word i).getLsbD k)) ↔
      ∀ p, P ((a.word (p / bitwordSize)).getLsbD (p % bitwordSize))
        ((b.word (p / bitwordSize)).getLsbD (p % bitwordSize)) := by
  constructor
  · intro h p
    exact h _ _ (Nat.mod_lt _ (by decide))
  · intro h i k hk
    have hp := h (bitwordSize * i + k)
    have hdiv : (bitwordSize * i + k) / bitwordSize = i := by
      unfold bitwordSize
      omega
    have hmod : (bitwordSize * i + k) % bitwordSize = k := by
      unfold bitwordSize
      omega
    rwa [hdiv, hmod] at hp

/-! ## The operators -/

section Operators

variable {a b : Bitmap}

theorem combine_gives (f : BitVec 64 → BitVec 64 → BitVec 64) (hf : f 0#64 0#64 = 0#64)
    (ha : a.words.length < 2 ^ 32) (hb : b.words.length < 2 ^ 32) :
    ∃ c, Gives (combine f a b) c ∧ c.words.length = max a.words.length b.words.length ∧
      ∀ i, c.word i = f (a.word i) (b.word i) := by
  let size := max a.words.length b.words.length
  have hsize : size < 2 ^ 32 := by omega
  let words := (List.range size).map fun i => f (a.word i) (b.word i)
  have hfill := (Counter.gives_fill hsize (fun i => f (a.word i) (b.word i)) 0#64).map moved
  have hlength : words.length = size := by rw [List.length_map, List.length_range]
  refine ⟨⟨words⟩, hfill, hlength, ?_⟩
  intro i
  rw [word_eq_getD]
  by_cases hi : i < size
  · simp [words, List.getD_eq_getElem?_getD, hi]
  · have hend : words.length ≤ i := by omega
    rw [word_eq_zero (by omega : a.words.length ≤ i), word_eq_zero (by omega : b.words.length ≤ i), hf,
      List.getD_eq_getElem?_getD, List.getElem?_eq_none hend]
    rfl

theorem combine_diverges (f : BitVec 64 → BitVec 64 → BitVec 64)
    (h : 2 ^ 32 ≤ max a.words.length b.words.length) (fuel : Nat) : combine f a b fuel = none := by
  rw [combine, Counter.loop_diverges h _ fuel (by decide)]
  · rfl
  · intro i words
    exact ⟨_, rfl⟩

theorem checks_gives {n : Nat} (hn : n < 2 ^ 32) {t : Nat → Bool} {P : Prop} (ht : (∀ i < n, t i = true) ↔ P) :
    ∃ r, Gives (checks n t) r ∧ (r = true ↔ P) := by
  refine ⟨_, (Counter.gives_test hn t).map verdict, ?_⟩
  rw [← ht]
  cases hall : (List.range n).all t with
  | true => simpa [verdict] using hall
  | false => simpa [verdict] using hall

/-- Sets are equal where the words are. -/
theorem positions_eq_iff : a.positions = b.positions ↔ ∀ i, a.word i = b.word i := by
  rw [Set.ext_iff]
  simp only [mem_positions]
  rw [← forall_word_iff (fun x y => x = true ↔ y = true)]
  constructor
  · intro h i
    apply BitVec.eq_of_getLsbD_eq
    intro k hk
    exact Bool.eq_iff_iff.mpr (h i k hk)
  · intro h i k _
    rw [h i]

theorem positions_subset_iff : a.positions ⊆ b.positions ↔ ∀ i, a.word i = (a.word i &&& b.word i) := by
  rw [Set.subset_def]
  simp only [mem_positions]
  rw [← forall_word_iff (fun x y => x = true → y = true)]
  constructor
  · intro h i
    apply BitVec.eq_of_getLsbD_eq
    intro k hk
    have hbit := h i k hk
    rw [BitVec.getLsbD_and]
    cases hx : (a.word i).getLsbD k <;> simp_all
  · intro h i k _ hx
    rw [h i, BitVec.getLsbD_and, Bool.and_eq_true] at hx
    exact hx.2

theorem positions_disjoint_iff : a.positions ∩ b.positions = ∅ ↔ ∀ i, (a.word i &&& b.word i) = 0#64 := by
  rw [Set.eq_empty_iff_forall_notMem]
  simp only [Set.mem_inter_iff, mem_positions]
  rw [← forall_word_iff (fun x y => ¬(x = true ∧ y = true))]
  constructor
  · intro h i
    apply BitVec.eq_of_getLsbD_eq
    intro k hk
    have hbit := h i k hk
    rw [BitVec.getLsbD_and]
    cases hx : (a.word i).getLsbD k <;> simp_all
  · intro h i k _ hbits
    have hzero := congrArg (fun x => x.getLsbD k) (h i)
    simp [hbits.1, hbits.2] at hzero

/-- A test of all words in front of a bound, which holds behind it anyway. -/
theorem forall_lt_iff {n : Nat} {P : Nat → Prop} (h : ∀ i, n ≤ i → P i) : (∀ i < n, P i) ↔ ∀ i, P i := by
  constructor
  · intro hlt i
    by_cases hi : i < n
    · exact hlt i hi
    · exact h i (by omega)
  · intro hall i _
    exact hall i

theorem or_gives (ha : a.words.length < 2 ^ 32) (hb : b.words.length < 2 ^ 32) :
    ∃ c, Gives (a.or b) c ∧ c.positions = a.positions ∪ b.positions := by
  obtain ⟨c, hc, -, hwords⟩ := combine_gives (fun x y => x ||| y) (by decide) ha hb
  refine ⟨c, hc, ?_⟩
  ext p
  simp [mem_positions, hwords]

theorem and_gives (ha : a.words.length < 2 ^ 32) (hb : b.words.length < 2 ^ 32) :
    ∃ c, Gives (a.and b) c ∧ c.positions = a.positions ∩ b.positions := by
  obtain ⟨c, hc, -, hwords⟩ := combine_gives (fun x y => x &&& y) (by decide) ha hb
  refine ⟨c, hc, ?_⟩
  ext p
  simp [mem_positions, hwords]

theorem sub_gives (ha : a.words.length < 2 ^ 32) (hb : b.words.length < 2 ^ 32) :
    ∃ c, Gives (a.sub b) c ∧ c.positions = a.positions \ b.positions := by
  obtain ⟨c, hc, -, hwords⟩ := combine_gives (fun x y => x &&& ~~~y) (by decide) ha hb
  refine ⟨c, hc, ?_⟩
  ext p
  have hp : p % bitwordSize < 64 := Nat.mod_lt _ (by decide)
  simp [mem_positions, hwords, hp]

theorem equals_gives (ha : a.words.length < 2 ^ 32) (hb : b.words.length < 2 ^ 32) :
    ∃ r, Gives (a.equals b) r ∧ (r = true ↔ a.positions = b.positions) := by
  rw [positions_eq_iff]
  unfold equals
  split_ifs with hlength
  · refine checks_gives ha ((forall₂_congr fun i hi => ?_).trans (forall_lt_iff fun i hi => ?_))
    · rw [word_eq_getD a, word]
      split_ifs <;> simp
    · rw [word_eq_zero hi, word_eq_zero (by omega)]
  · refine checks_gives hb ((forall₂_congr fun i hi => ?_).trans (forall_lt_iff fun i hi => ?_))
    · rw [word_eq_getD b, word]
      split_ifs
      · simp
      · rw [beq_iff_eq, eq_comm]
    · rw [word_eq_zero hi, word_eq_zero (by omega)]

theorem le_gives (ha : a.words.length < 2 ^ 32) :
    ∃ r, Gives (a.le b) r ∧ (r = true ↔ a.positions ⊆ b.positions) := by
  rw [positions_subset_iff]
  refine checks_gives ha ((forall₂_congr fun i hi => ?_).trans (forall_lt_iff fun i hi => ?_))
  · rw [word_eq_getD a, beq_iff_eq]
  · rw [word_eq_zero hi]
    simp

theorem disjoint_gives (ha : a.words.length < 2 ^ 32) (hb : b.words.length < 2 ^ 32) :
    ∃ r, Gives (disjoint a b) r ∧ (r = true ↔ a.positions ∩ b.positions = ∅) := by
  rw [positions_disjoint_iff]
  refine checks_gives (by omega) ((forall₂_congr fun i hi => ?_).trans (forall_lt_iff fun i hi => ?_))
  · rw [beq_iff_eq]
  · rw [word_eq_zero (by omega : a.words.length ≤ i)]
    simp

end Operators

/-! ## The number of elements -/

/-- `count_bits_set` counts the bits that are set. -/
theorem countBitsSet_eq (x : BitVec 64) : countBitsSet x = Popcount.weight 64 x.toNat := by
  have h55 : (0x5555555555555555#64).toNat = Popcount.repeated 8 0x55 := by decide
  have h33 : (0x3333333333333333#64).toNat = Popcount.repeated 8 0x33 := by decide
  have h0F : (0x0F0F0F0F0F0F0F0F#64).toNat = Popcount.repeated 8 0x0F := by decide
  have h01 : (0x0101010101010101#64).toNat = Popcount.repeated 8 1 := by decide
  let p := x - ((x >>> 1) &&& 0x5555555555555555#64)
  let q := (p &&& 0x3333333333333333#64) + ((p >>> 2) &&& 0x3333333333333333#64)
  let r := (q + (q >>> 4)) &&& 0x0F0F0F0F0F0F0F0F#64
  have hmask : ((x >>> 1) &&& 0x5555555555555555#64).toNat
      = (x.toNat >>> 1) &&& Popcount.repeated 8 0x55 := by
    rw [BitVec.toNat_and, BitVec.toNat_ushiftRight, h55]
  have hpairs : p.toNat = Popcount.pairs 8 x.toNat := by
    have hle : (x.toNat >>> 1) &&& Popcount.repeated 8 0x55 ≤ x.toNat :=
      Nat.le_trans Nat.and_le_left (Nat.shiftRight_le _ _)
    rw [BitVec.toNat_sub_of_le (by rwa [BitVec.le_def, hmask]), hmask, Popcount.pairs]
  -- neither sum carries beyond the word
  have hle : ∀ n, n &&& Popcount.repeated 8 0x33 ≤ 0x3333333333333333 := fun n =>
    Nat.le_trans Nat.and_le_right (by decide)
  have hnibbles : q.toNat = Popcount.nibbles 8 x.toNat := by
    have h₁ := hle (Popcount.pairs 8 x.toNat)
    have h₂ := hle (Popcount.pairs 8 x.toNat >>> 2)
    rw [BitVec.toNat_add, BitVec.toNat_and, BitVec.toNat_and, BitVec.toNat_ushiftRight, h33, hpairs,
      Popcount.nibbles]
    exact Nat.mod_eq_of_lt (by omega)
  have hbytes : r.toNat = Popcount.bytes 8 x.toNat := by
    have h₁ := hle (Popcount.pairs 8 x.toNat)
    have h₂ := hle (Popcount.pairs 8 x.toNat >>> 2)
    have hq : Popcount.nibbles 8 x.toNat ≤ 0x6666666666666666 := by
      rw [Popcount.nibbles]
      omega
    have hshift : Popcount.nibbles 8 x.toNat >>> 4 ≤ 0x0666666666666666 := by
      rw [Nat.shiftRight_eq_div_pow]
      omega
    rw [BitVec.toNat_and, BitVec.toNat_add, BitVec.toNat_ushiftRight, h0F, hnibbles,
      Nat.mod_eq_of_lt (by omega), Popcount.bytes]
  change ((r * 0x0101010101010101#64) >>> 56).toNat = _
  rw [BitVec.toNat_ushiftRight, BitVec.toNat_mul, h01, hbytes, Popcount.weight_eq x.isLt]

/-- The positions of the bits in a list of words, in order. -/
def bitsOf (words : List (BitVec 64)) : List Nat :=
  (List.range (bitwordSize * words.length)).filter (bitAt words)

theorem length_bitsOf_cons (w : BitVec 64) (words : List (BitVec 64)) :
    (bitsOf (w :: words)).length = Popcount.weight 64 w.toNat + (bitsOf words).length := by
  have hsize : bitwordSize * (w :: words).length = 64 + bitwordSize * words.length := by
    rw [List.length_cons, bitwordSize]
    omega
  have hlow : (List.range 64).countP (bitAt (w :: words)) = Popcount.weight 64 w.toNat := by
    apply List.countP_congr
    intro p hp
    have hdiv : p / bitwordSize = 0 := Nat.div_eq_of_lt (List.mem_range.mp hp)
    have hmod : p % bitwordSize = p := Nat.mod_eq_of_lt (List.mem_range.mp hp)
    rw [bitAt, hdiv, hmod]
    rfl
  have hhigh : (List.range (bitwordSize * words.length)).countP (bitAt (w :: words) ∘ (64 + ·))
      = (List.range (bitwordSize * words.length)).countP (bitAt words) := by
    apply List.countP_congr
    intro p _
    have hdiv : (64 + p) / bitwordSize = p / bitwordSize + 1 := by
      unfold bitwordSize
      omega
    have hmod : (64 + p) % bitwordSize = p % bitwordSize := by
      unfold bitwordSize
      omega
    rw [Function.comp, bitAt, bitAt, hdiv, hmod]
    rfl
  rw [bitsOf, bitsOf, ← List.countP_eq_length_filter, ← List.countP_eq_length_filter, hsize,
    List.range_add, List.countP_append, List.countP_map, hlow, hhigh]

/-- `hamming_weight` counts the bits in all words. -/
theorem hammingWeight_eq {b : Bitmap} (h : b.words.length < 2 ^ 32) :
    b.hammingWeight = (bitsOf b.words).length := by
  have hfold : ∀ (words : List (BitVec 64)) (bcount : Nat), bcount + 64 * words.length < 2 ^ 64 →
      words.foldl (fun bcount word => (bcount + countBitsSet word) % 2 ^ 64) bcount
        = bcount + (bitsOf words).length := by
    intro words
    induction words with
    | nil => simp [bitsOf]
    | cons w words ih =>
      intro bcount hlt
      rw [List.length_cons] at hlt
      have hw := length_bitsOf_cons w words
      have hle : Popcount.weight 64 w.toNat ≤ 64 := by
        have hcount := List.countP_le_length (p := w.toNat.testBit) (l := List.range 64)
        rwa [List.length_range] at hcount
      rw [List.foldl_cons, countBitsSet_eq, Nat.mod_eq_of_lt (by omega), ih _ (by omega)]
      omega
  have hwords := hfold b.words 0 (by omega)
  rw [Nat.zero_add] at hwords
  exact hwords

theorem ncard_positions (b : Bitmap) : b.positions.ncard = (bitsOf b.words).length := by
  have hnodup : (bitsOf b.words).Nodup := List.nodup_range.filter _
  have hset : b.positions = ((bitsOf b.words).toFinset : Set Nat) := by
    ext p
    rw [mem_positions, word_eq_getD]
    simp only [bitsOf, List.coe_toFinset, Set.mem_ofPred_eq, List.mem_filter, List.mem_range]
    constructor
    · intro hbit
      refine ⟨?_, hbit⟩
      by_contra hout
      have hlength : b.words.length ≤ p / bitwordSize := by
        unfold bitwordSize at hout ⊢
        omega
      rw [List.getD_eq_getElem?_getD, List.getElem?_eq_none hlength] at hbit
      simp at hbit
    · exact fun hbit => hbit.2
  rw [hset, Set.ncard_coe_finset, List.toFinset_card_of_nodup hnodup]

/-! ## All operations -/

/-- The operations do with two bitmaps what their names say of the sets. -/
structure Faithful (a b : Bitmap) : Prop where
  or : ∃ c, Gives (a.or b) c ∧ c.positions = a.positions ∪ b.positions
  and : ∃ c, Gives (a.and b) c ∧ c.positions = a.positions ∩ b.positions
  sub : ∃ c, Gives (a.sub b) c ∧ c.positions = a.positions \ b.positions
  setBit : ∀ p, (a.setBit p).positions = insert p a.positions
  clearBit : ∀ p, (a.clearBit p).positions = a.positions \ {p}
  equals : ∃ r, Gives (a.equals b) r ∧ (r = true ↔ a.positions = b.positions)
  le : ∃ r, Gives (a.le b) r ∧ (r = true ↔ a.positions ⊆ b.positions)
  ge : ∃ r, Gives (a.ge b) r ∧ (r = true ↔ b.positions ⊆ a.positions)
  disjoint : ∃ r, Gives (disjoint a b) r ∧ (r = true ↔ a.positions ∩ b.positions = ∅)
  hammingWeight : a.hammingWeight = a.positions.ncard
  isEmpty : a.isEmpty = true ↔ a.positions.ncard = 0

/-- Bitmaps are faithful sets as long as their words can be counted in an `unsigned int`. -/
theorem operators_faithful_iff (a b : Bitmap) :
    Faithful a b ↔ a.words.length < 2 ^ 32 ∧ b.words.length < 2 ^ 32 := by
  constructor
  · intro h
    obtain ⟨c, ⟨fuel, hc⟩, -⟩ := h.or
    by_contra hlength
    have hnone := combine_diverges (a := a) (b := b) (fun x y => x ||| y) (by omega) fuel
    rw [or, hnone] at hc
    simp at hc
  · rintro ⟨ha, hb⟩
    refine ⟨or_gives ha hb, and_gives ha hb, sub_gives ha hb, ?_, ?_, equals_gives ha hb, le_gives ha,
      le_gives hb, disjoint_gives ha hb, ?_, ?_⟩
    · intro p
      ext q
      simp [positions]
    · intro p
      ext q
      simp [positions, and_comm]
    · rw [hammingWeight_eq ha, ncard_positions]
    · rw [isEmpty, beq_iff_eq, hammingWeight_eq ha, ncard_positions]

/-- The union with a bitmap of 2^32 words is never there. -/
theorem wide_unfaithful : ¬Faithful (ofSize (2 ^ 32)) empty := by
  intro h
  obtain ⟨c, ⟨fuel, hc⟩, -⟩ := h.or
  have hlength : 2 ^ 32 ≤ max (ofSize (2 ^ 32)).words.length empty.words.length := by
    rw [ofSize, List.length_replicate]
    exact Nat.le_max_left _ _
  rw [or, combine_diverges _ hlength fuel] at hc
  simp at hc

end Nodeoze.Database.Bitmap
