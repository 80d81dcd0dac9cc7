import Nodeoze.Lib.Msgpack

/-!
# Integers in the msgpack format

An integer has an encoding in every size that it fits, with an unsigned or with a signed code.
`Shortest` is the one that a canonical writer uses: the shortest with an unsigned code if the integer
is not negative, and with a signed one if it is.
-/

namespace Msgpack

open Endian

def NumCode.isUnsigned : NumCode → Bool
  | .uint8 | .uint16 | .uint32 | .uint64 => true
  | _ => false

def NumCode.isSigned : NumCode → Bool
  | .int8 | .int16 | .int32 | .int64 => true
  | _ => false

namespace Leaf

/-- The integer that a leaf denotes, with its number in the given byte order. -/
def int? (o : Order) : Leaf → Option Int
  | .fixint b => some (toSigned 1 b.toNat)
  | .num k bs =>
    if k.isUnsigned then some (o.value bs)
    else if k.isSigned then some (toSigned k.width (o.value bs))
    else none
  | _ => none

/-- The number of bytes behind the type code of an integer. -/
def size : Leaf → Nat
  | .num k _ => k.width
  | _ => 0

/-- The code is unsigned if the integer is not negative, and signed if it is; a fixint is both. -/
def OfSign (v : Int) : Leaf → Prop
  | .fixint _ => True
  | .num k _ => if 0 ≤ v then k.isUnsigned = true else k.isSigned = true
  | _ => False

/-- The integers that have an encoding with this number of bytes behind the code. -/
def Fits (s : Nat) (v : Int) : Prop :=
  if s = 0 then -32 ≤ v ∧ v ≤ 127 else -((256 ^ s : Nat) : Int) ≤ 2 * v ∧ v < ((256 ^ s : Nat) : Int)

/-- The shortest encoding of the integer, with the code for its sign. -/
structure Shortest (o : Order) (v : Int) (l : Leaf) : Prop where
  wf : l.WF
  int : l.int? o = some v
  sign : l.OfSign v
  least : ∀ l' : Leaf, l'.WF → l'.int? o = some v → l.encode.length ≤ l'.encode.length

variable {o : Order} {v : Int} {l l' : Leaf}

theorem length_encode_int (hwf : l.WF) (hint : l.int? o = some v) : l.encode.length = l.size + 1 := by
  cases l with
  | fixint b => rfl
  | num k bs =>
    have hbs : bs.length = k.width := hwf
    rw [encode, List.length_cons, hbs]
    rfl
  | nil => cases hint
  | bool b => cases hint
  | str f bs => cases hint
  | bin f bs => cases hint
  | ext f type bs => cases hint

theorem toSigned_bounds {w n : Nat} (hn : n < 256 ^ w) :
    -((256 ^ w : Nat) : Int) ≤ 2 * toSigned w n ∧ 2 * toSigned w n < ((256 ^ w : Nat) : Int) := by
  unfold toSigned
  generalize 256 ^ w = m at *
  split_ifs <;> omega

theorem toUnsigned_toSigned {w n : Nat} (hn : n < 256 ^ w) : toUnsigned w (toSigned w n) = n := by
  unfold toUnsigned toSigned
  generalize 256 ^ w = m at *
  split_ifs with h
  · rw [Int.emod_eq_of_lt (by omega) (by omega)]
    omega
  · rw [Int.sub_emod_right, Int.emod_eq_of_lt (by omega) (by omega)]
    omega

theorem size_mem (l : Leaf) : l.size ∈ [0, 1, 2, 4, 8] := by
  cases l with
  | num k bs => cases k <;> simp [size, NumCode.width]
  | _ => simp [size]

/-- An encoding bounds its integer. -/
theorem fits_size (hwf : l.WF) (hint : l.int? o = some v) : Fits l.size v := by
  cases l with
  | fixint b =>
    have hb : b ≤ 0x7f ∨ 0xe0 ≤ b := hwf
    have hlt := b.toNat_lt
    rw [UInt8.le_iff_toNat_le, UInt8.le_iff_toNat_le] at hb
    rw [show (fixint b).size = 0 from rfl, Fits, if_pos rfl, ← Option.some.inj hint, toSigned]
    have h1 : (0x7f : UInt8).toNat = 127 := rfl
    have h2 : (0xe0 : UInt8).toNat = 224 := rfl
    split_ifs <;> omega
  | num k bs =>
    have hbs : bs.length = k.width := hwf
    have hvalue := o.value_lt bs
    rw [hbs] at hvalue
    have hsize : k.width ≠ 0 := by cases k <;> decide
    rw [int?] at hint
    rw [show (Leaf.num k bs).size = k.width from rfl, Fits, if_neg hsize]
    split_ifs at hint
    · rw [← Option.some.inj hint]
      omega
    · rw [← Option.some.inj hint]
      have hbounds := toSigned_bounds hvalue
      omega
  | nil => cases hint
  | bool b => cases hint
  | str f bs => cases hint
  | bin f bs => cases hint
  | ext f type bs => cases hint

/-- The bytes behind the code are the two's complement of the integer. -/
theorem num_bytes {k : NumCode} {bs : List UInt8} (hwf : (num k bs).WF)
    (hint : (num k bs).int? o = some v) : bs = o.bytes k.width (toUnsigned k.width v) := by
  have hbs : bs.length = k.width := hwf
  have hvalue := o.value_lt bs
  rw [hbs] at hvalue
  have hpattern : toUnsigned k.width v = o.value bs := by
    rw [int?] at hint
    split_ifs at hint
    · rw [← Option.some.inj hint, toUnsigned, Int.emod_eq_of_lt (by omega) (by exact_mod_cast hvalue)]
      exact Int.toNat_natCast _
    · rw [← Option.some.inj hint]
      exact toUnsigned_toSigned hvalue
  rw [hpattern, ← hbs, Order.bytes_value]

theorem code_of_width {k k' : NumCode} (hwidth : k.width = k'.width)
    (h : k.isUnsigned = true ∧ k'.isUnsigned = true ∨ k.isSigned = true ∧ k'.isSigned = true) : k = k' := by
  cases k <;> cases k' <;> simp_all [NumCode.width, NumCode.isUnsigned, NumCode.isSigned]

/-- The sign and the size determine the encoding. -/
theorem eq_of_size (hwf : l.WF) (hwf' : l'.WF) (hint : l.int? o = some v) (hint' : l'.int? o = some v)
    (hsign : l.OfSign v) (hsign' : l'.OfSign v) (hsize : l.size = l'.size) : l = l' := by
  have hwidth : ∀ k : NumCode, k.width ≠ 0 := by
    intro k
    cases k <;> decide
  cases l with
  | fixint b =>
    cases l' with
    | fixint b' =>
      have hb := toUnsigned_toSigned (w := 1) b.toNat_lt
      have hb' := toUnsigned_toSigned (w := 1) b'.toNat_lt
      rw [Option.some.inj hint] at hb
      rw [Option.some.inj hint', hb] at hb'
      rw [UInt8.toNat_inj.mp hb']
    | num k bs => exact absurd hsize.symm (hwidth k)
    | _ => cases hint'
  | num k bs =>
    cases l' with
    | fixint b => exact absurd hsize (hwidth k)
    | num k' bs' =>
      have hcodes : k = k' := by
        refine code_of_width hsize ?_
        unfold OfSign at hsign hsign'
        split_ifs at hsign hsign'
        · exact .inl ⟨hsign, hsign'⟩
        · exact .inr ⟨hsign, hsign'⟩
      have hbs' := num_bytes hwf' hint'
      rw [← hcodes] at hbs' ⊢
      rw [num_bytes hwf hint, ← hbs']
    | _ => cases hint'
  | _ => cases hint

/-- If the integer has no encoding of a smaller size, the one of this size is the shortest. -/
theorem shortest_of_size (hwf : l.WF) (hint : l.int? o = some v) (hsign : l.OfSign v)
    (hleast : ∀ s ∈ [0, 1, 2, 4, 8], s < l.size → ¬Fits s v) : Shortest o v l where
  wf := hwf
  int := hint
  sign := hsign
  least := by
    intro l' hwf' hint'
    rw [length_encode_int hwf hint, length_encode_int hwf' hint']
    by_contra hlt
    exact hleast l'.size l'.size_mem (by omega) (fits_size hwf' hint')

/-- Every other encoding with the code for the sign is longer. -/
theorem Shortest.unique (h : Shortest o v l) (hwf' : l'.WF) (hint' : l'.int? o = some v)
    (hsign' : l'.OfSign v) (hne : l' ≠ l) : l.encode.length < l'.encode.length := by
  refine lt_of_le_of_ne (h.least l' hwf' hint') fun hlen => hne ?_
  rw [length_encode_int h.wf h.int, length_encode_int hwf' hint'] at hlen
  exact eq_of_size hwf' h.wf hint' h.int hsign' h.sign (by omega)

end Leaf

end Msgpack
