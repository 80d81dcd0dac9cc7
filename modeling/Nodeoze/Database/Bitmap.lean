import Mathlib.Data.List.Basic
import Mathlib.Tactic.Common

/-!
# The bit vector

`bitmap` keeps a set of bit positions in a growing vector of 64-bit words. A position past the last
word reads as zero; `set_bit` and `clear_bit` first append zero words up to the position's own word.
The two spec lemmas at the end are all that the users of a bitmap need.
-/

namespace Nodeoze.Database

/-- `bitmap::bitword_size` -/
def bitwordSize : Nat := 64

/-- `class bitmap` -/
structure Bitmap where
  words : List (BitVec 64)
  deriving Repr, DecidableEq

namespace Bitmap

/-- The null constructor. -/
def empty : Bitmap := ⟨[]⟩

/-- `1ULL << bit_offset` -/
def mask (position : Nat) : BitVec 64 := 1#64 <<< (position % bitwordSize)

/-- `bitmap::is_bit_set` -/
def isBitSet (b : Bitmap) (position : Nat) : Bool :=
  match b.words[position / bitwordSize]? with
  | none => false
  | some word => (word &&& mask position) != 0#64

/-- The loop at the head of `set_bit` and `clear_bit`: zero words up to the one at `offset`. -/
def grow (b : Bitmap) (offset : Nat) : List (BitVec 64) :=
  b.words ++ List.replicate (offset + 1 - b.words.length) 0#64

/-- `bitmap::set_bit` -/
def setBit (b : Bitmap) (position : Nat) : Bitmap :=
  ⟨(b.grow (position / bitwordSize)).modify (position / bitwordSize) (· ||| mask position)⟩

/-- `bitmap::clear_bit` -/
def clearBit (b : Bitmap) (position : Nat) : Bitmap :=
  ⟨(b.grow (position / bitwordSize)).modify (position / bitwordSize) (· &&& ~~~(mask position))⟩

/-! ## What a test reads -/

theorem getLsbD_mask (p i : Nat) (hi : i < 64) :
    (mask p).getLsbD i = decide (i = p % bitwordSize) := by
  have hp : p % bitwordSize < 64 := Nat.mod_lt _ (by decide)
  by_cases h : i = p % bitwordSize
  · simp [mask, h, hp]
  · rcases Nat.lt_or_gt_of_ne h with hlt | hgt
    · simp [mask, hi, hlt, h]
    · have hne : i - p % bitwordSize ≠ 0 := by omega
      simp [mask, hi, h, hne]

/-- Testing against a one-bit mask reads that bit. -/
theorem and_mask_ne_zero (word : BitVec 64) (p : Nat) :
    ((word &&& mask p) != 0#64) = word.getLsbD (p % bitwordSize) := by
  have hp : p % bitwordSize < 64 := Nat.mod_lt _ (by decide)
  cases hbit : word.getLsbD (p % bitwordSize) with
  | true =>
    rw [bne_iff_ne]
    intro hzero
    have hread := congrArg (fun w => w.getLsbD (p % bitwordSize)) hzero
    simp only [BitVec.getLsbD_and, getLsbD_mask p _ hp, hbit] at hread
    simp at hread
  | false =>
    rw [bne_eq_false_iff_eq]
    apply BitVec.eq_of_getLsbD_eq
    intro i hi
    rw [BitVec.getLsbD_and, getLsbD_mask p i hi]
    by_cases h : i = p % bitwordSize
    · simp [h, hbit]
    · simp [h]

/-- The bit at a position of a vector of words, zero past its end. -/
def bitAt (words : List (BitVec 64)) (p : Nat) : Bool :=
  (words.getD (p / bitwordSize) 0#64).getLsbD (p % bitwordSize)

theorem isBitSet_eq (b : Bitmap) (p : Nat) : b.isBitSet p = bitAt b.words p := by
  unfold isBitSet bitAt
  rw [List.getD_eq_getElem?_getD]
  cases b.words[p / bitwordSize]? with
  | none => simp
  | some word => exact and_mask_ne_zero word p

@[simp] theorem isBitSet_empty (p : Nat) : empty.isBitSet p = false := by
  simp [isBitSet_eq, bitAt, empty]

theorem length_grow (b : Bitmap) (offset : Nat) : offset < (b.grow offset).length := by
  simp only [grow, List.length_append, List.length_replicate]
  omega

theorem getD_grow (b : Bitmap) (offset i : Nat) :
    (b.grow offset).getD i 0#64 = b.words.getD i 0#64 := by
  simp only [grow, List.getD_eq_getElem?_getD]
  by_cases h : i < b.words.length
  · rw [List.getElem?_append_left h]
  · rw [List.getElem?_append_right (by omega), List.getElem?_replicate,
      List.getElem?_eq_none (by omega : b.words.length ≤ i)]
    split <;> rfl

/-- Rewriting the word of one position rewrites the bits of that word only. -/
theorem bitAt_modify (b : Bitmap) (f : BitVec 64 → BitVec 64) (p q : Nat) :
    bitAt ((b.grow (p / bitwordSize)).modify (p / bitwordSize) f) q =
      if q / bitwordSize = p / bitwordSize
      then (f (b.words.getD (q / bitwordSize) 0#64)).getLsbD (q % bitwordSize)
      else bitAt b.words q := by
  unfold bitAt
  by_cases h : q / bitwordSize = p / bitwordSize
  · rw [if_pos h, h, ← getD_grow b (p / bitwordSize)]
    have hlen := length_grow b (p / bitwordSize)
    simp [List.getD_eq_getElem?_getD, List.getElem?_eq_getElem hlen]
  · rw [if_neg h, ← getD_grow b (p / bitwordSize)]
    simp [List.getD_eq_getElem?_getD, Ne.symm h]

theorem position_eq_iff (p q : Nat) :
    q = p ↔ q / bitwordSize = p / bitwordSize ∧ q % bitwordSize = p % bitwordSize := by
  unfold bitwordSize
  omega

/-- `set_bit` adds its position to the set and no other. -/
@[simp] theorem isBitSet_setBit (b : Bitmap) (p q : Nat) :
    (b.setBit p).isBitSet q = (decide (q = p) || b.isBitSet q) := by
  have hq : q % bitwordSize < 64 := Nat.mod_lt _ (by decide)
  rw [isBitSet_eq, isBitSet_eq, setBit, bitAt_modify]
  by_cases h : q / bitwordSize = p / bitwordSize
  · simp [h, bitAt, position_eq_iff p q, getLsbD_mask p _ hq, Bool.or_comm]
  · simp [h, position_eq_iff p q]

/-- `clear_bit` removes its position from the set and no other. -/
@[simp] theorem isBitSet_clearBit (b : Bitmap) (p q : Nat) :
    (b.clearBit p).isBitSet q = (!decide (q = p) && b.isBitSet q) := by
  have hq : q % bitwordSize < 64 := Nat.mod_lt _ (by decide)
  rw [isBitSet_eq, isBitSet_eq, clearBit, bitAt_modify]
  by_cases h : q / bitwordSize = p / bitwordSize
  · rw [if_pos h, BitVec.getLsbD_and, BitVec.getLsbD_not, getLsbD_mask p _ hq]
    simp [h, hq, bitAt, position_eq_iff p q, Bool.and_comm]
  · simp [h, position_eq_iff p q]

end Bitmap

end Nodeoze.Database
