import Nodeoze.Bstream.Primitives
import Nodeoze.Lib.MsgpackInt

/-!
# Integers of different types

The integral serializers choose the code of a number by its value alone, so that every type writes it
the same way, in its shortest msgpack encoding.  The deserializer of a type accepts the codes of the
numbers that it can hold and reports a type error for the others.
-/

namespace Nodeoze.Bstream

open Reader Endian Msgpack

variable {σ : Type} {sg sg' : Bool} {w w' : Width} {i : Int}

/-- The reader ends with `std::errc` `type_error` on the chunks, whatever follows them. -/
def Refuses (p : Istream σ Int) (s : σ) (ts : List Chunk) : Prop :=
  ∀ junk pos r n, p junk ⟨pos, bytes ts ++ r, n, s⟩ = .error (.system .typeError)

/-! ### Reading -/

theorem refuses_code {f : UInt8 → Istream σ Int} {c : UInt8} {ts : List Chunk} {s : σ}
    (h : Refuses (f c) s ts) : Refuses (do let c ← get eof; f c) s (.byte c :: ts) := by
  intro junk pos r n
  exact h junk (pos + 1) r n

theorem refuses_throw (s : σ) (ts : List Chunk) :
    Refuses (throw (.system .typeError) : Istream σ Int) s ts :=
  fun _ _ _ _ => rfl

theorem pow_size_le {k : Nat} {w : Width} (h : k ≤ w.size) : 256 ^ k ≤ 256 ^ w.size :=
  Nat.pow_le_pow_right (by decide) h

/-- An unsigned code of a number that the type cannot hold is refused: it is longer than the type, or as
long and too large for its sign bit. -/
theorem refuses_unsignedCode (o : Order) {k n : Nat} (hn : n < 256 ^ k) (hout : ¬InRange sg w n) (s : σ) :
    Refuses (getUnsignedCode o sg w.size k) s [putNum o k n] := by
  rw [getUnsignedCode]
  split_ifs with hcode
  · exact refuses_throw s _
  · rw [not_or, not_and] at hcode
    have hk := pow_size_le (w := w) (Nat.not_lt.mp hcode.1)
    have hlarge : sg = true ∧ k = w.size ∧ 256 ^ w.size ≤ 2 * n := by
      cases sg with
      | false =>
        simp only [InRange, Bool.false_eq_true, if_false] at hout
        omega
      | true =>
        simp only [InRange, if_true] at hout
        refine ⟨rfl, ?_, by omega⟩
        by_contra hne
        have hpow : 256 ^ (k + 1) ≤ 256 ^ w.size := Nat.pow_le_pow_right (by decide) (by omega)
        rw [pow_succ] at hpow
        omega
    intro junk pos r n'
    have hread := (reads_getNum o hn s).full junk pos r n'
    rw [Reader.bind_ok hread, if_pos hlarge]
    rfl

/-- A signed code of a number that the type cannot hold is refused: the type is unsigned or shorter. -/
theorem refuses_signedCode (o : Order) {k : Nat} (hlo : -((256 ^ k : Nat) : Int) ≤ 2 * i)
    (hhi : 2 * i < ((256 ^ k : Nat) : Int)) (hout : ¬InRange sg w i) (s : σ) :
    Refuses (getSignedCode o sg w.size k) s [putNum o k (toUnsigned k i)] := by
  have hcode : sg = false ∨ w.size < k := by
    by_contra hcode
    rw [not_or, Bool.not_eq_false, Nat.not_lt] at hcode
    have hk := pow_size_le hcode.2
    simp only [InRange, hcode.1, if_true] at hout
    omega
  rw [getSignedCode, if_pos hcode]
  exact refuses_throw s _

/-- No type holds more than 64 bits. -/
theorem InRange.bounds (h : InRange sg w i) :
    -((256 ^ 8 : Nat) : Int) ≤ 2 * i ∧ i < ((256 ^ 8 : Nat) : Int) := by
  have hw : 256 ^ w.size ≤ 256 ^ 8 := Nat.pow_le_pow_right (by decide) (by cases w <;> decide)
  unfold InRange at h
  split_ifs at h <;> omega

/-- Every type holds the positive fixints. -/
theorem inRange_fixint (sg : Bool) (w : Width) {n : Nat} (hn : n ≤ 0x7f) : InRange sg w n := by
  have hw : 256 ^ 1 ≤ 256 ^ w.size := pow_size_le (by cases w <;> decide)
  unfold InRange
  split_ifs <;> omega

theorem refuses_putUnsigned (o : Order) {n : Nat} (hn : n < 256 ^ 8) (hout : ¬InRange sg w n) (s : σ) :
    Refuses (getInt o sg w) s (putUnsigned o n) := by
  unfold putUnsigned
  split_ifs with h1 h2 h3 h4
  · exact absurd (inRange_fixint sg w h1) hout
  · refine refuses_code ?_
    simpa [getIntCode] using refuses_unsignedCode o (by omega) hout s
  · refine refuses_code ?_
    simpa [getIntCode] using refuses_unsignedCode o (by omega) hout s
  · refine refuses_code ?_
    simpa [getIntCode] using refuses_unsignedCode o (by omega) hout s
  · refine refuses_code ?_
    simpa [getIntCode] using refuses_unsignedCode o hn hout s

theorem refuses_negative (o : Order) (hneg : ¬0 ≤ i) (hlo : -((256 ^ 8 : Nat) : Int) ≤ 2 * i)
    (hout : ¬InRange sg w i) (s : σ) : Refuses (getInt o sg w) s (putSigned o i) := by
  rw [putSigned, if_neg hneg]
  split_ifs with h1 h2 h3 h4
  · -- an unsigned type has no case for the negative fixints
    have hsg : sg = false := by
      rw [← Bool.not_eq_true]
      intro hsg
      have hw : 256 ^ 1 ≤ 256 ^ w.size := pow_size_le (by cases w <;> decide)
      simp only [InRange, hsg, if_true] at hout
      omega
    refine refuses_code ?_
    have hpat : toUnsigned 1 i = (256 + i).toNat := by unfold toUnsigned; omega
    have hbyte : (UInt8.ofNat (toUnsigned 1 i)).toNat = toUnsigned 1 i := by
      simpa using toUnsigned_lt 1 i
    have hcode : 0xe0 ≤ UInt8.ofNat (toUnsigned 1 i) := by
      rw [UInt8.le_iff_toNat_le, hbyte, hpat, show (0xe0 : UInt8).toNat = 224 from rfl]
      omega
    generalize UInt8.ofNat (toUnsigned 1 i) = c at hcode
    have hne : ∀ d : UInt8, d < 0xe0 → c ≠ d := by
      rintro d hd rfl
      exact absurd hcode (UInt8.not_le.mpr hd)
    have hpos : ¬c ≤ 0x7f := by
      intro hle
      exact absurd (UInt8.le_trans hcode hle) (by decide)
    have hthrow : getIntCode o sg w c = (throw (.system .typeError) : Istream σ Int) := by
      simp [getIntCode, hsg, hpos, hne]
    rw [hthrow]
    exact refuses_throw s _
  · refine refuses_code ?_
    simpa [getIntCode] using refuses_signedCode o (by omega) (by omega) hout s
  · refine refuses_code ?_
    simpa [getIntCode] using refuses_signedCode o (by omega) (by omega) hout s
  · refine refuses_code ?_
    simpa [getIntCode] using refuses_signedCode o (by omega) (by omega) hout s
  · refine refuses_code ?_
    simpa [getIntCode] using refuses_signedCode o hlo (by omega) hout s

/-- The two serializers write an integer that both types hold in the same way. -/
theorem putInt_eq (o : Order) (h : InRange sg w i) : putInt o sg i = putSigned o i := by
  cases sg with
  | true => rfl
  | false =>
    have hnonneg : 0 ≤ i := by
      simp only [InRange, Bool.false_eq_true, if_false] at h
      exact h.1
    rw [putInt, putSigned, if_pos hnonneg]
    rfl

/-- A type that holds the integer reads it, whatever type has written it. -/
theorem reads_putSigned (o : Order) (h : InRange sg w i) (s : σ) :
    Reads eof (getInt o sg w) s (putSigned o i) i s := by
  rw [← putInt_eq o h]
  exact reads_getInt o h s

/-- A type that does not hold it refuses it. -/
theorem refuses_putSigned (o : Order) (h : InRange sg' w' i) (hout : ¬InRange sg w i) (s : σ) :
    Refuses (getInt o sg w) s (putSigned o i) := by
  obtain ⟨hlo, hhi⟩ := h.bounds
  by_cases hi : 0 ≤ i
  · obtain ⟨n, rfl⟩ := Int.eq_ofNat_of_zero_le hi
    rw [putSigned, if_pos hi]
    exact refuses_putUnsigned o (by exact_mod_cast hhi) hout s
  · exact refuses_negative o hi hlo hout s

/-- What one integral type has written is read by another as the same integer if it holds it, and is a
type error if it does not. -/
theorem getInt_putInt (o : Order) (h : InRange sg w i) (junk : Nat → Nat → UInt8) (pos : Nat)
    (r : List UInt8) (n : Nat) (s : σ) :
    (getInt o sg' w' : Istream σ Int) junk ⟨pos, bytes (putInt o sg i) ++ r, n, s⟩ =
      if InRange sg' w' i then .ok (i, ⟨pos + (bytes (putInt o sg i)).length, r, n, s⟩)
      else .error (.system .typeError) := by
  rw [putInt_eq o h]
  split_ifs with hin
  · exact (reads_putSigned o hin s).full junk pos r n
  · exact refuses_putSigned o h hin s junk pos r n

/-- Minus 129 in 16 bits is no unsigned integer. -/
theorem negative_refused : (getInt .big false .w64 : Istream Unit Int) (fun _ _ => 0)
    ⟨0, bytes (putInt .big true (-129)) ++ [], 0, ()⟩ = .error (.system .typeError) := by
  have hin : InRange true .w16 (-129) := by decide
  have hout : ¬InRange false .w64 (-129) := by decide
  have hread : (getInt .big false .w64 : Istream Unit Int) (fun _ _ => 0)
      ⟨0, bytes (putInt .big true (-129)) ++ [], 0, ()⟩ = if InRange false .w64 (-129) then _ else _ :=
    getInt_putInt .big hin (fun _ _ => 0) 0 [] 0 ()
  rwa [if_neg hout] at hread

/-! ### Writing -/

/-- The encoding of a number with an unsigned code. -/
theorem shortest_unsigned (o : Order) {k : NumCode} {n : Nat} (hk : k.isUnsigned = true)
    (hn : n < 256 ^ k.width) (hleast : ∀ s ∈ [0, 1, 2, 4, 8], s < k.width → ¬Leaf.Fits s n) :
    Leaf.Shortest o n (.num k (o.bytes k.width n)) := by
  refine Leaf.shortest_of_size (Order.length_bytes o k.width n) ?_ ?_ hleast
  · rw [Leaf.int?, if_pos hk, Order.value_bytes_of_lt o hn]
  · rw [Leaf.OfSign, if_pos (Int.natCast_nonneg n)]
    exact hk

/-- The encoding of a negative number with a signed code. -/
theorem shortest_signed (o : Order) {k : NumCode} (hk : k.isSigned = true) (hneg : ¬0 ≤ i)
    (hlo : -((256 ^ k.width : Nat) : Int) ≤ 2 * i)
    (hleast : ∀ s ∈ [0, 1, 2, 4, 8], s < k.width → ¬Leaf.Fits s i) :
    Leaf.Shortest o i (.num k (o.bytes k.width (toUnsigned k.width i))) := by
  refine Leaf.shortest_of_size (Order.length_bytes o k.width _) ?_ ?_ hleast
  · have hcode : k.isUnsigned = false := by
      cases k <;> simp_all [NumCode.isSigned, NumCode.isUnsigned]
    rw [Leaf.int?, hcode, if_neg (by decide), if_pos hk,
      Order.value_bytes_of_lt o (toUnsigned_lt k.width i), toSigned_toUnsigned k.width i hlo (by omega)]
  · rw [Leaf.OfSign, if_neg hneg]
    exact hk

/-- A fixint has no other encoding as short. -/
theorem shortest_fixint (o : Order) (hlo : -32 ≤ i) (hhi : i ≤ 127) :
    Leaf.Shortest o i (.fixint (UInt8.ofNat (toUnsigned 1 i))) := by
  have hbyte : (UInt8.ofNat (toUnsigned 1 i)).toNat = toUnsigned 1 i := by
    simpa using toUnsigned_lt 1 i
  refine Leaf.shortest_of_size ?_ ?_ trivial (by simp [Leaf.size])
  · rw [Leaf.WF, UInt8.le_iff_toNat_le, UInt8.le_iff_toNat_le, hbyte, show (0x7f : UInt8).toNat = 127 from rfl,
      show (0xe0 : UInt8).toNat = 224 from rfl]
    unfold toUnsigned
    omega
  · rw [Leaf.int?, hbyte, toSigned_toUnsigned 1 i (by omega) (by omega)]

theorem bytes_code (o : Order) (k : NumCode) (n : Nat) :
    bytes [.byte k.byte, putNum o k.width n] = (Leaf.num k (o.bytes k.width n)).encode := by
  have hnum : (putNum o k.width n).bytes = o.bytes k.width n := by
    unfold putNum
    split_ifs with hw
    · rw [hw]
      cases o <;> rfl
    · rfl
  rw [bytes_cons, bytes_cons, hnum, bytes_nil, List.append_nil]
  rfl

theorem putUnsigned_shortest (o : Order) {n : Nat} (hn : n < 256 ^ 8) :
    ∃ l : Leaf, bytes (putUnsigned o n) = l.encode ∧ l.Shortest o n := by
  unfold putUnsigned
  split_ifs with h1 h2 h3 h4
  · have hpattern : toUnsigned 1 n = n := by unfold toUnsigned; omega
    have hshort := shortest_fixint o (i := n) (by omega) (by omega)
    rw [hpattern] at hshort
    exact ⟨_, rfl, hshort⟩
  · refine ⟨_, bytes_code o .uint8 n, shortest_unsigned o rfl ?_ ?_⟩
    · exact show n < 256 ^ 1 by omega
    · simp [NumCode.width, Leaf.Fits]
      omega
  · refine ⟨_, bytes_code o .uint16 n, shortest_unsigned o rfl ?_ ?_⟩
    · exact show n < 256 ^ 2 by omega
    · simp [NumCode.width, Leaf.Fits]
      omega
  · refine ⟨_, bytes_code o .uint32 n, shortest_unsigned o rfl ?_ ?_⟩
    · exact show n < 256 ^ 4 by omega
    · simp [NumCode.width, Leaf.Fits]
      omega
  · refine ⟨_, bytes_code o .uint64 n, shortest_unsigned o rfl hn ?_⟩
    simp [NumCode.width, Leaf.Fits]
    omega

theorem putSigned_shortest (o : Order) (h : InRange sg w i) :
    ∃ l : Leaf, bytes (putSigned o i) = l.encode ∧ l.Shortest o i := by
  obtain ⟨hlo, hhi⟩ := h.bounds
  unfold putSigned
  split_ifs with h0 h1 h2 h3 h4
  · obtain ⟨n, rfl⟩ := Int.eq_ofNat_of_zero_le h0
    exact putUnsigned_shortest o (by exact_mod_cast hhi)
  · exact ⟨_, rfl, shortest_fixint o h1 (by omega)⟩
  · refine ⟨_, bytes_code o .int8 _, shortest_signed o rfl h0 ?_ ?_⟩
    · exact show -((256 ^ 1 : Nat) : Int) ≤ 2 * i by omega
    · simp [NumCode.width, Leaf.Fits]
      omega
  · refine ⟨_, bytes_code o .int16 _, shortest_signed o rfl h0 ?_ ?_⟩
    · exact show -((256 ^ 2 : Nat) : Int) ≤ 2 * i by omega
    · simp [NumCode.width, Leaf.Fits]
      omega
  · refine ⟨_, bytes_code o .int32 _, shortest_signed o rfl h0 ?_ ?_⟩
    · exact show -((256 ^ 4 : Nat) : Int) ≤ 2 * i by omega
    · simp [NumCode.width, Leaf.Fits]
      omega
  · refine ⟨_, bytes_code o .int64 _, shortest_signed o rfl h0 hlo ?_⟩
    simp [NumCode.width, Leaf.Fits]
    omega

/-- No encoding starts another: a reader of the type of the longer one would read both integers. -/
theorem eq_of_startsWith (o : Order) {i' : Int} (h : InRange sg w i) (h' : InRange sg' w' i')
    (hstart : bytes (putSigned o i) <+: bytes (putSigned o i')) : i = i' := by
  obtain ⟨rest, hrest⟩ := hstart
  have hread := (reads_putSigned (σ := Unit) o h' ()).full (fun _ _ => 0) 0 [] 0
  rw [List.append_nil, ← hrest] at hread
  by_cases hin : InRange sg' w' i
  · rw [(reads_putSigned (σ := Unit) o hin ()).full (fun _ _ => 0) 0 rest 0] at hread
    exact congrArg Prod.fst (Except.ok.inj hread)
  · rw [refuses_putSigned (σ := Unit) o h hin () (fun _ _ => 0) 0 rest 0] at hread
    cases hread

/-- The integral types of the language; a `bool` holds 0 and 1, and has a serializer of its own. -/
inductive Integral
  | bool
  | int (sg : Bool) (w : Width)
  deriving DecidableEq, Repr

namespace Integral

def Holds : Integral → Int → Prop
  | .bool, i => i = 0 ∨ i = 1
  | .int sg w, i => InRange sg w i

instance : (T : Integral) → (i : Int) → Decidable (T.Holds i)
  | .bool, i => inferInstanceAs (Decidable (i = 0 ∨ i = 1))
  | .int sg w, i => inferInstanceAs (Decidable (InRange sg w i))

/-- `os << value` for a value of the type. -/
def put (o : Order) : Integral → Int → List Chunk
  | .bool, i => putBool (i ≠ 0)
  | .int sg _, i => putInt o sg i

/-- Every integral type but `bool` writes an integer in the same bytes, which are its shortest encoding
with a code for its sign; no encoding is the start of the one of another integer. -/
theorem put_canonical (o : Order) {T T' : Integral} (hT : T ≠ .bool) (hT' : T' ≠ .bool) {i : Int}
    (h : T.Holds i) (h' : T'.Holds i) :
    bytes (T.put o i) = bytes (T'.put o i) ∧
    (∃ l : Leaf, bytes (T.put o i) = l.encode ∧ l.Shortest o i ∧
      ∀ l' : Leaf, l'.WF → l'.int? o = some i → l'.OfSign i → l' ≠ l → l.encode.length < l'.encode.length) ∧
    ∀ (U : Integral) (j : Int), U ≠ .bool → U.Holds j → bytes (T.put o i) <+: bytes (U.put o j) → i = j := by
  cases T with
  | bool => exact absurd rfl hT
  | int sg w =>
    cases T' with
    | bool => exact absurd rfl hT'
    | int sg' w' =>
      have hput : (Integral.int sg w).put o i = putSigned o i := putInt_eq o h
      have hput' : (Integral.int sg' w').put o i = putSigned o i := putInt_eq o h'
      rw [hput, hput']
      refine ⟨rfl, ?_, ?_⟩
      · obtain ⟨l, hl, hshort⟩ := putSigned_shortest o h
        exact ⟨l, hl, hshort, fun l' hwf hint hsign hne => hshort.unique hwf hint hsign hne⟩
      · intro U j hU hj hstart
        cases U with
        | bool => exact absurd rfl hU
        | int sg'' w'' =>
          have hput'' : (Integral.int sg'' w'').put o j = putSigned o j := putInt_eq o hj
          rw [hput''] at hstart
          exact eq_of_startsWith o h hj hstart

/-- 200 in 16 and in 64 bits. -/
theorem put_canonical_200 :
    bytes ((Integral.int true .w16).put .big 200) = bytes ((Integral.int false .w64).put .big 200) :=
  (put_canonical .big (by decide) (by decide) (by decide) (by decide)).1

/-- One is written differently as a `bool` and as an `int`. -/
theorem put_bool_differs : Integral.bool.Holds 1 ∧ (Integral.int true .w32).Holds 1 ∧
    bytes (Integral.bool.put .big 1) = [0xc3] ∧ bytes ((Integral.int true .w32).put .big 1) = [0x01] := by
  decide

end Integral

end Nodeoze.Bstream
