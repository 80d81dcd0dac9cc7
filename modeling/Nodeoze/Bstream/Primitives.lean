import Nodeoze.Bstream.Typecode
import Nodeoze.Lib.ReaderRuns

/-!
# Numbers, headers, strings and blobs

The leaves of the format: what `onumstream`, the integral, floating, string and buffer
serializers put on the stream, chunk by chunk, and what `inumstream` and the matching
deserializers take from it.  Each pair has one lemma: the reader `Reads` the writer's chunks.
-/

namespace Nodeoze.Bstream

open Reader Endian

variable {σ : Type}

/-- The widths of the integral types. -/
inductive Width
  | w8
  | w16
  | w32
  | w64
  deriving DecidableEq, Repr

/-- `sizeof` of an integral type. -/
def Width.size : Width → Nat
  | .w8 => 1
  | .w16 => 2
  | .w32 => 4
  | .w64 => 8

/-- Whether a mathematical integer is a value of the integral type. -/
def InRange (sg : Bool) (w : Width) (i : Int) : Prop :=
  if sg then -((256 ^ w.size : Nat) : Int) ≤ 2 * i ∧ 2 * i < ((256 ^ w.size : Nat) : Int)
  else 0 ≤ i ∧ i < ((256 ^ w.size : Nat) : Int)

instance (sg : Bool) (w : Width) (i : Int) : Decidable (InRange sg w i) := by
  unfold InRange; exact inferInstance

/-- A reader of an `ibstream`. -/
abbrev Istream (σ α : Type) : Type := Reader σ Fault α

/-! ### Numbers -/

/-- `onumstream::put_num` of a `w`-byte value. -/
def putNum (o : Order) (w n : Nat) : Chunk :=
  if w = 1 then .byte (UInt8.ofNat n) else .num (o.bytes w n)

/-- The throwing `inumstream::get_num`: one byte is read by `get`, more by the streambuf's `getn`,
whose short count is dropped. -/
def getNum (o : Order) (w : Nat) : Istream σ Nat :=
  if w = 1 then do
    let b ← get eof
    pure b.toNat
  else Reader.getNum o w

theorem reads_getNum (o : Order) {w n : Nat} (hn : n < 256 ^ w) (s : σ) :
    Reads eof (getNum o w) s [putNum o w n] n s := by
  by_cases hw : w = 1
  · subst hw
    have hbyte : (UInt8.ofNat n).toNat = n := by simpa using hn
    simpa [getNum, putNum, hbyte] using
      Reads.then_pure (fun b : UInt8 => b.toNat) (Reads.get (UInt8.ofNat n) s)
  · simpa [getNum, putNum, hw] using Reads.getNum o hn s

/-- The serializer of the unsigned integral types. -/
def putUnsigned (o : Order) (n : Nat) : List Chunk :=
  if n ≤ 0x7f then [.byte (UInt8.ofNat n)]
  else if n ≤ 0xff then [.byte Typecode.uint8, putNum o 1 n]
  else if n ≤ 0xffff then [.byte Typecode.uint16, putNum o 2 n]
  else if n ≤ 0xffffffff then [.byte Typecode.uint32, putNum o 4 n]
  else [.byte Typecode.uint64, putNum o 8 n]

/-- The serializer of the signed integral types. -/
def putSigned (o : Order) (i : Int) : List Chunk :=
  if 0 ≤ i then putUnsigned o i.toNat
  else if -32 ≤ i then [.byte (UInt8.ofNat (toUnsigned 1 i))]
  else if -0x80 ≤ i then [.byte Typecode.int8, putNum o 1 (toUnsigned 1 i)]
  else if -0x8000 ≤ i then [.byte Typecode.int16, putNum o 2 (toUnsigned 2 i)]
  else if -0x80000000 ≤ i then [.byte Typecode.int32, putNum o 4 (toUnsigned 4 i)]
  else [.byte Typecode.int64, putNum o 8 (toUnsigned 8 i)]

/-- The serializer of an integral type. -/
def putInt (o : Order) (sg : Bool) (i : Int) : List Chunk :=
  if sg then putSigned o i else putUnsigned o i.toNat

/-- An unsigned code of `k` bytes in the deserializer of a `w`-byte type: shorter numbers always
fit, one of the full width is checked against the maximum of a signed type. -/
def getUnsignedCode (o : Order) (sg : Bool) (w k : Nat) : Istream σ Int :=
  if w < k ∨ (sg = true ∧ w = 1) then throw (.system .typeError)
  else do
    let n ← getNum o k
    if sg = true ∧ k = w ∧ 256 ^ w ≤ 2 * n then throw (.system .typeError) else pure (n : Int)

/-- A signed code of `k` bytes in the deserializer of a `w`-byte type; only the signed types have
such a case. -/
def getSignedCode (o : Order) (sg : Bool) (w k : Nat) : Istream σ Int :=
  if sg = false ∨ w < k then throw (.system .typeError)
  else do
    let n ← getNum o k
    pure (toSigned k n)

/-- The deserializer of the integral type of the given signedness and width, after its type code
has been taken. -/
def getIntCode (o : Order) (sg : Bool) (w : Width) (tcode : UInt8) : Istream σ Int :=
  if tcode ≤ Typecode.positiveFixintMax then pure tcode.toNat
  else if sg = true ∧ Typecode.negativeFixintMin ≤ tcode then pure (toSigned 1 tcode.toNat)
  else if tcode = Typecode.boolTrue then pure 1
  else if tcode = Typecode.boolFalse then pure 0
  else if tcode = Typecode.int8 then getSignedCode o sg w.size 1
  else if tcode = Typecode.uint8 then getUnsignedCode o sg w.size 1
  else if tcode = Typecode.int16 then getSignedCode o sg w.size 2
  else if tcode = Typecode.uint16 then getUnsignedCode o sg w.size 2
  else if tcode = Typecode.int32 then getSignedCode o sg w.size 4
  else if tcode = Typecode.uint32 then getUnsignedCode o sg w.size 4
  else if tcode = Typecode.int64 then getSignedCode o sg w.size 8
  else if tcode = Typecode.uint64 then getUnsignedCode o sg w.size 8
  else throw (.system .typeError)

/-- The deserializer of an integral type. -/
def getInt (o : Order) (sg : Bool) (w : Width) : Istream σ Int := do
  let tcode ← get eof
  getIntCode o sg w tcode

theorem reads_getUnsignedCode (o : Order) {sg : Bool} {w : Width} {k n : Nat} (hn : n < 256 ^ k)
    (hw : InRange sg w n) (hfit : k ≤ w.size) (h1 : sg = true → 1 < w.size) (s : σ) :
    Reads eof (getUnsignedCode o sg w.size k) s [putNum o k n] (n : Int) s := by
  have hacc : ¬ (w.size < k ∨ (sg = true ∧ w.size = 1)) := by
    rintro (h | ⟨hs, h⟩)
    · omega
    · have := h1 hs; omega
  have hmax : ¬ (sg = true ∧ k = w.size ∧ 256 ^ w.size ≤ 2 * n) := by
    rintro ⟨rfl, -, h⟩
    simp only [InRange, if_true] at hw
    omega
  rw [getUnsignedCode, if_neg hacc]
  exact (reads_getNum o hn s).bind_pure (if_neg hmax)

theorem reads_getSignedCode (o : Order) {w : Width} {k : Nat} {i : Int}
    (hlo : -((256 ^ k : Nat) : Int) ≤ 2 * i) (hhi : 2 * i < ((256 ^ k : Nat) : Int))
    (hfit : k ≤ w.size) (s : σ) :
    Reads eof (getSignedCode o true w.size k) s [putNum o k (toUnsigned k i)] i s := by
  have hacc : ¬ (true = false ∨ w.size < k) := by simp; omega
  rw [getSignedCode, if_neg hacc]
  have hread := Reads.then_pure (toSigned k) (reads_getNum o (toUnsigned_lt k i) s)
  rwa [toSigned_toUnsigned k i hlo hhi] at hread

/-- A reader that dispatches on the type code it takes. -/
theorem reads_code {α : Type} {f : UInt8 → Istream σ α} {c : UInt8} {ts : List Chunk} {a : α}
    {s s' : σ} (h : Reads eof (f c) s ts a s') :
    Reads eof (do let c ← get eof; f c) s (.byte c :: ts) a s' :=
  Reads.bind (Reads.get c s) h

theorem reads_getInt_unsigned (o : Order) {sg : Bool} {w : Width} {n : Nat}
    (hw : InRange sg w n) (s : σ) :
    Reads eof (getInt o sg w) s (putUnsigned o n) (n : Int) s := by
  unfold putUnsigned
  split_ifs with h1 h2 h3 h4
  · have hcode : (UInt8.ofNat n).toNat = n := by simp; omega
    have hle : UInt8.ofNat n ≤ Typecode.positiveFixintMax := by
      rw [UInt8.le_iff_toNat_le, hcode]; exact h1
    refine reads_code ?_
    rw [getIntCode, if_pos hle, hcode]
    exact Reads.pure _ s
  · have hfit : 1 ≤ w.size ∧ (sg = true → 1 < w.size) := by
      cases w <;> cases sg <;> simp [InRange, Width.size] at hw ⊢
      omega
    refine reads_code ?_
    simpa [getIntCode] using reads_getUnsignedCode o (by omega) hw hfit.1 hfit.2 s
  · have hfit : 2 ≤ w.size := by
      cases w <;> cases sg <;> simp [InRange, Width.size] at hw ⊢ <;> omega
    refine reads_code ?_
    simpa [getIntCode] using reads_getUnsignedCode o (by omega) hw hfit (fun _ => by omega) s
  · have hfit : 4 ≤ w.size := by
      cases w <;> cases sg <;> simp [InRange, Width.size] at hw ⊢ <;> omega
    refine reads_code ?_
    simpa [getIntCode] using reads_getUnsignedCode o (by omega) hw hfit (fun _ => by omega) s
  · have hfit : 8 ≤ w.size ∧ n < 256 ^ 8 := by
      cases w <;> cases sg <;> simp [InRange, Width.size] at hw ⊢ <;> omega
    refine reads_code ?_
    simpa [getIntCode] using reads_getUnsignedCode o hfit.2 hw hfit.1 (fun _ => by omega) s

theorem reads_getInt_negative (o : Order) {w : Width} {i : Int} (hneg : ¬ 0 ≤ i)
    (hw : InRange true w i) (s : σ) :
    Reads eof (getInt o true w) s (putSigned o i) i s := by
  rw [putSigned, if_neg hneg]
  simp only [InRange, if_true] at hw
  split_ifs with h1 h2 h3 h4
  · have hpat : toUnsigned 1 i = (256 + i).toNat := by unfold toUnsigned; omega
    have hcode : (UInt8.ofNat (toUnsigned 1 i)).toNat = toUnsigned 1 i := by
      simpa using toUnsigned_lt 1 i
    have hpos : ¬ UInt8.ofNat (toUnsigned 1 i) ≤ 0x7f := by
      rw [UInt8.le_iff_toNat_le, hcode, hpat, show (0x7f : UInt8).toNat = 127 from rfl]
      omega
    have hfix : 0xe0 ≤ UInt8.ofNat (toUnsigned 1 i) := by
      rw [UInt8.le_iff_toNat_le, hcode, hpat, show (0xe0 : UInt8).toNat = 224 from rfl]
      omega
    refine reads_code ?_
    rw [getIntCode, if_neg hpos, if_pos ⟨rfl, hfix⟩, hcode,
      toSigned_toUnsigned 1 i (by omega) (by omega)]
    exact Reads.pure _ s
  · refine reads_code ?_
    have hfit : 1 ≤ w.size := by cases w <;> decide
    simpa [getIntCode] using reads_getSignedCode o (by omega) (by omega) hfit s
  · refine reads_code ?_
    have hfit : 2 ≤ w.size := by
      cases w <;> simp [Width.size] at hw ⊢
      omega
    simpa [getIntCode] using reads_getSignedCode o (by omega) (by omega) hfit s
  · refine reads_code ?_
    have hfit : 4 ≤ w.size := by cases w <;> simp [Width.size] at hw ⊢ <;> omega
    simpa [getIntCode] using reads_getSignedCode o (by omega) (by omega) hfit s
  · refine reads_code ?_
    have hfit : 8 ≤ w.size ∧ -((256 ^ 8 : Nat) : Int) ≤ 2 * i := by
      cases w <;> simp [Width.size] at hw ⊢ <;> omega
    simpa [getIntCode] using reads_getSignedCode o hfit.2 (by omega) hfit.1 s

/-- The deserializer of every integral type reads its serializer's chunks. -/
theorem reads_getInt (o : Order) {sg : Bool} {w : Width} {i : Int} (hw : InRange sg w i) (s : σ) :
    Reads eof (getInt o sg w) s (putInt o sg i) i s := by
  have hnat : 0 ≤ i → Reads eof (getInt o sg w) s (putUnsigned o i.toNat) i s := by
    intro hi
    have h := reads_getInt_unsigned o (n := i.toNat) (by rwa [Int.toNat_of_nonneg hi]) s
    rwa [Int.toNat_of_nonneg hi] at h
  cases sg with
  | false =>
    simp only [InRange, Bool.false_eq_true, if_false] at hw
    exact hnat hw.1
  | true =>
    by_cases hi : 0 ≤ i
    · simpa [putInt, putSigned, hi] using hnat hi
    · exact reads_getInt_negative o hi hw s

/-! ### Headers -/

/-- `obstream::write_array_header`; its argument is a `std::uint32_t`, so a longer size loses its
high bits on the way in. -/
def writeArrayHeader (o : Order) (size : Nat) : List Chunk :=
  let n := size % 2 ^ 32
  if n ≤ 15 then [.byte (0x90 ||| UInt8.ofNat n)]
  else if n ≤ 0xffff then [.byte Typecode.array16, putNum o 2 n]
  else [.byte Typecode.array32, putNum o 4 n]

/-- `obstream::write_blob_header`. -/
def writeBlobHeader (o : Order) (size : Nat) : List Chunk :=
  let n := size % 2 ^ 32
  if n ≤ 0xff then [.byte Typecode.bin8, putNum o 1 n]
  else if n ≤ 0xffff then [.byte Typecode.bin16, putNum o 2 n]
  else [.byte Typecode.bin32, putNum o 4 n]

/-- `ibstream::read_array_header`. -/
def readArrayHeader (o : Order) : Istream σ Nat := do
  let tcode ← get eof
  if Typecode.fixarrayMin ≤ tcode ∧ tcode ≤ Typecode.fixarrayMax then pure (tcode &&& 0x0f).toNat
  else if tcode = Typecode.array16 then getNum o 2
  else if tcode = Typecode.array32 then getNum o 4
  else throw (.system .typeError)

/-- `ibstream::check_array_header`. -/
def checkArrayHeader (o : Order) (expected : Nat) : Istream σ Unit := do
  let actual ← readArrayHeader o
  if actual = expected then pure () else throw (.system .typeError)

/-- `ibstream::read_blob_header`. -/
def readBlobHeader (o : Order) : Istream σ Nat := do
  let tcode ← get eof
  if tcode = Typecode.bin8 then getNum o 1
  else if tcode = Typecode.bin16 then getNum o 2
  else if tcode = Typecode.bin32 then getNum o 4
  else throw (.system .typeError)

/-- `obstream::write_map_header`. -/
def writeMapHeader (o : Order) (size : Nat) : List Chunk :=
  let n := size % 2 ^ 32
  if n ≤ 15 then [.byte (0x80 ||| UInt8.ofNat n)]
  else if n ≤ 0xffff then [.byte Typecode.map16, putNum o 2 n]
  else [.byte Typecode.map32, putNum o 4 n]

/-- `ibstream::read_map_header`; it takes the codes of short arrays as well. -/
def readMapHeader (o : Order) : Istream σ Nat := do
  let tcode ← get eof
  if Typecode.fixmapMin ≤ tcode ∧ tcode ≤ Typecode.fixarrayMax then pure (tcode &&& 0x0f).toNat
  else if tcode = Typecode.map16 then getNum o 2
  else if tcode = Typecode.map32 then getNum o 4
  else throw (.system .typeError)

/-- `ibstream::read_string_header`. -/
def readStringHeader (o : Order) : Istream σ Nat := do
  let tcode ← get eof
  if Typecode.fixstrMin ≤ tcode ∧ tcode ≤ Typecode.fixstrMax then pure (tcode &&& 0x1f).toNat
  else if tcode = Typecode.str8 then getNum o 1
  else if tcode = Typecode.str16 then getNum o 2
  else if tcode = Typecode.str32 then getNum o 4
  else throw (.system .typeError)

theorem fixarray_code (n : Fin 16) :
    Typecode.fixarrayMin ≤ 0x90 ||| UInt8.ofNat n ∧ 0x90 ||| UInt8.ofNat n ≤ Typecode.fixarrayMax ∧
      ((0x90 ||| UInt8.ofNat n) &&& 0x0f).toNat = n := by
  revert n; decide

theorem reads_readArrayHeader (o : Order) {n : Nat} (hn : n < 2 ^ 32) (s : σ) :
    Reads eof (readArrayHeader o) s (writeArrayHeader o n) n s := by
  simp only [writeArrayHeader, Nat.mod_eq_of_lt hn]
  split_ifs with h1 h2
  · obtain ⟨hmin, hmax, hval⟩ := fixarray_code ⟨n, by omega⟩
    refine reads_code ?_
    simp only at hmin hmax hval
    rw [if_pos ⟨hmin, hmax⟩, hval]
    exact Reads.pure n s
  · refine reads_code ?_
    simpa using reads_getNum o (show n < 256 ^ 2 by omega) s
  · refine reads_code ?_
    simpa using reads_getNum o (show n < 256 ^ 4 by omega) s

theorem fixmap_codes (n : Fin 16) :
    Typecode.fixmapMin ≤ 0x80 ||| UInt8.ofNat n ∧ 0x80 ||| UInt8.ofNat n ≤ Typecode.fixarrayMax ∧
      ((0x80 ||| UInt8.ofNat n) &&& 0x0f).toNat = n := by
  revert n; decide

theorem reads_readMapHeader (o : Order) {n : Nat} (hn : n < 2 ^ 32) (s : σ) :
    Reads eof (readMapHeader o) s (writeMapHeader o n) n s := by
  simp only [writeMapHeader, Nat.mod_eq_of_lt hn]
  split_ifs with h1 h2
  · obtain ⟨hmin, hmax, hval⟩ := fixmap_codes ⟨n, by omega⟩
    refine reads_code ?_
    simp only at hmin hmax hval
    rw [if_pos ⟨hmin, hmax⟩, hval]
    exact Reads.pure n s
  · refine reads_code ?_
    simpa using reads_getNum o (show n < 256 ^ 2 by omega) s
  · refine reads_code ?_
    simpa using reads_getNum o (show n < 256 ^ 4 by omega) s

theorem reads_checkArrayHeader (o : Order) {n : Nat} (hn : n < 2 ^ 32) (s : σ) :
    Reads eof (checkArrayHeader o n) s (writeArrayHeader o n) () s := by
  exact (reads_readArrayHeader o hn s).bind_pure (if_pos rfl)

theorem reads_readBlobHeader (o : Order) {n : Nat} (hn : n < 2 ^ 32) (s : σ) :
    Reads eof (readBlobHeader o) s (writeBlobHeader o n) n s := by
  simp only [writeBlobHeader, Nat.mod_eq_of_lt hn]
  split_ifs with h1 h2
  · refine reads_code ?_
    simpa using reads_getNum o (show n < 256 ^ 1 by omega) s
  · refine reads_code ?_
    simpa using reads_getNum o (show n < 256 ^ 2 by omega) s
  · refine reads_code ?_
    simpa using reads_getNum o (show n < 256 ^ 4 by omega) s

/-! ### Strings, blobs, booleans and floating point words -/

/-- The serializer of `std::string`: lengths from `2 ^ 32` on are refused. -/
def putString (o : Order) (bs : List UInt8) : Except Fault (List Chunk) :=
  let n := bs.length
  if n ≤ 31 then .ok [.byte (0xa0 ||| UInt8.ofNat n), .raw bs]
  else if n ≤ 0xff then .ok [.byte Typecode.str8, putNum o 1 n, .raw bs]
  else if n ≤ 0xffff then .ok [.byte Typecode.str16, putNum o 2 n, .raw bs]
  else if n ≤ 0xffffffff then .ok [.byte Typecode.str32, putNum o 4 n, .raw bs]
  else .error .typeError

/-- The deserializer of `std::string`. -/
def getString (o : Order) : Istream σ (List UInt8) := do
  let tcode ← get eof
  if Typecode.fixstrMin ≤ tcode ∧ tcode ≤ Typecode.fixstrMax then getn eof (tcode &&& 0x1f).toNat
  else if tcode = Typecode.str8 then do
    let length ← getNum o 1
    getn eof length
  else if tcode = Typecode.str16 then do
    let length ← getNum o 2
    getn eof length
  else if tcode = Typecode.str32 then do
    let length ← getNum o 4
    getn eof length
  else throw (.system .typeError)

/-- The deserializer of `string_alias`, which keeps a slice of the stream's buffer instead of a copy. -/
def getStringAlias (o : Order) : Istream σ (List UInt8) := getString o

/-- `obstream::write_blob`. -/
def writeBlob (o : Order) (bs : List UInt8) : List Chunk :=
  writeBlobHeader o bs.length ++ [.raw bs]

/-- `ibstream::read_blob`. -/
def readBlob (o : Order) : Istream σ (List UInt8) := do
  let nbytes ← readBlobHeader o
  getn eof nbytes

def putBool (b : Bool) : List Chunk :=
  [.byte (if b then Typecode.boolTrue else Typecode.boolFalse)]

def getBool : Istream σ Bool := do
  let tcode ← get eof
  if tcode = Typecode.boolTrue then pure true
  else if tcode = Typecode.boolFalse then pure false
  else throw (.system .typeError)

def putFloat (o : Order) (word : Nat) : List Chunk := [.byte Typecode.float32, putNum o 4 word]

def putDouble (o : Order) (word : Nat) : List Chunk := [.byte Typecode.float64, putNum o 8 word]

def getFloat (o : Order) : Istream σ Nat := do
  let tcode ← get eof
  if tcode = Typecode.float32 then getNum o 4 else throw (.system .typeError)

/-- The deserializer of `double`; `widen` is the conversion of a 32-bit pattern. -/
def getDouble (widen : Nat → Nat) (o : Order) : Istream σ Nat := do
  let tcode ← get eof
  if tcode = Typecode.float32 then do
    let unpacked ← getNum o 4
    pure (widen unpacked)
  else if tcode = Typecode.float64 then getNum o 8
  else throw (.system .typeError)

theorem fixstr_code (n : Fin 32) :
    Typecode.fixstrMin ≤ 0xa0 ||| UInt8.ofNat n ∧ 0xa0 ||| UInt8.ofNat n ≤ Typecode.fixstrMax ∧
      ((0xa0 ||| UInt8.ofNat n) &&& 0x1f).toNat = n := by
  revert n; decide

theorem reads_getString (o : Order) {bs : List UInt8} (hn : bs.length < 2 ^ 32) (s : σ) :
    ∃ ts, putString o bs = .ok ts ∧ Reads eof (getString o) s ts bs s := by
  simp only [putString]
  split_ifs with h1 h2 h3 h4
  · refine ⟨_, rfl, reads_code ?_⟩
    obtain ⟨hmin, hmax, hval⟩ := fixstr_code ⟨bs.length, by omega⟩
    simp only at hmin hmax hval
    rw [if_pos ⟨hmin, hmax⟩, hval]
    exact Reads.getn bs s
  · refine ⟨_, rfl, reads_code ?_⟩
    simpa using Reads.bind (reads_getNum o (by omega) s) (Reads.getn bs s)
  · refine ⟨_, rfl, reads_code ?_⟩
    simpa using Reads.bind (reads_getNum o (by omega) s) (Reads.getn bs s)
  · refine ⟨_, rfl, reads_code ?_⟩
    simpa using Reads.bind (reads_getNum o (by omega) s) (Reads.getn bs s)
  · omega

/-- The header of a string can be read alone. -/
theorem reads_readStringHeader (o : Order) {bs : List UInt8} (hn : bs.length < 2 ^ 32) (s : σ) :
    ∃ ts, putString o bs = .ok (ts ++ [.raw bs]) ∧
      Reads eof (readStringHeader o) s ts bs.length s := by
  simp only [putString]
  split_ifs with h1 h2 h3 h4
  · refine ⟨[_], rfl, reads_code ?_⟩
    obtain ⟨hmin, hmax, hval⟩ := fixstr_code ⟨bs.length, by omega⟩
    simp only at hmin hmax hval
    rw [if_pos ⟨hmin, hmax⟩, hval]
    exact Reads.pure _ s
  · refine ⟨[_, _], rfl, reads_code ?_⟩
    simpa using reads_getNum o (show bs.length < 256 ^ 1 by omega) s
  · refine ⟨[_, _], rfl, reads_code ?_⟩
    simpa using reads_getNum o (show bs.length < 256 ^ 2 by omega) s
  · refine ⟨[_, _], rfl, reads_code ?_⟩
    simpa using reads_getNum o (show bs.length < 256 ^ 4 by omega) s
  · omega

theorem reads_readBlob (o : Order) {bs : List UInt8} (hn : bs.length < 2 ^ 32) (s : σ) :
    Reads eof (readBlob o) s (writeBlob o bs) bs s :=
  Reads.bind (reads_readBlobHeader o hn s) (Reads.getn bs s)

theorem reads_getBool (b : Bool) (s : σ) : Reads eof getBool s (putBool b) b s := by
  refine reads_code ?_
  cases b
  · simpa using Reads.pure false s
  · simpa using Reads.pure true s

theorem reads_getFloat (o : Order) {word : Nat} (hn : word < 2 ^ 32) (s : σ) :
    Reads eof (getFloat o) s (putFloat o word) word s := by
  refine reads_code ?_
  simpa using reads_getNum o (by omega) s

theorem reads_getDouble (widen : Nat → Nat) (o : Order) {word : Nat} (hn : word < 2 ^ 64) (s : σ) :
    Reads eof (getDouble widen o) s (putDouble o word) word s := by
  refine reads_code ?_
  simpa using reads_getNum o (show word < 256 ^ 8 by omega) s

/-- The chunks start with a type code that satisfies `P`. -/
def StartsWith (P : UInt8 → Prop) (ts : List Chunk) : Prop := ∃ c us, ts = .byte c :: us ∧ P c

theorem StartsWith.append {P : UInt8 → Prop} {ts : List Chunk} (h : StartsWith P ts)
    (us : List Chunk) : StartsWith P (ts ++ us) := by
  obtain ⟨c, vs, rfl, hc⟩ := h
  exact ⟨c, vs ++ us, rfl, hc⟩

theorem StartsWith.imp {P Q : UInt8 → Prop} {ts : List Chunk} (h : StartsWith P ts)
    (hpq : ∀ c, P c → Q c) : StartsWith Q ts := by
  obtain ⟨c, us, hts, hc⟩ := h
  exact ⟨c, us, hts, hpq c hc⟩

/-! ### What the leaves can throw -/

section Plain

/-- A reader that leaves the user state alone and throws nothing but `std::system_error`. -/
abbrev IsLeaf {α : Type} (p : ∀ σ : Type, Istream σ α) : Prop := Plain Fault.IsSystem p

variable (o : Order)

theorem leaf_throw {α : Type} (c : Errc) : IsLeaf fun σ => (throw (.system c) : Istream σ α) :=
  .throw ⟨c, rfl⟩

theorem leaf_get : IsLeaf fun σ => (get eof : Istream σ UInt8) := .get ⟨_, rfl⟩

theorem leaf_getn (n : Nat) : IsLeaf fun σ => (getn eof n : Istream σ (List UInt8)) := .getn n ⟨_, rfl⟩

theorem leaf_getNum (w : Nat) : IsLeaf fun σ => (getNum o w : Istream σ Nat) :=
  .ite (leaf_get.bind fun b => .pure b.toNat) (.getNum o w)

theorem leaf_getUnsignedCode (sg : Bool) (w k : Nat) :
    IsLeaf fun σ => (getUnsignedCode o sg w k : Istream σ Int) :=
  .ite (leaf_throw _) ((leaf_getNum o k).bind fun _ => .ite (leaf_throw _) (.pure _))

theorem leaf_getSignedCode (sg : Bool) (w k : Nat) :
    IsLeaf fun σ => (getSignedCode o sg w k : Istream σ Int) :=
  .ite (leaf_throw _) ((leaf_getNum o k).bind fun _ => .pure _)

theorem leaf_getInt (sg : Bool) (w : Width) : IsLeaf fun σ => (getInt o sg w : Istream σ Int) := by
  refine leaf_get.bind fun tcode => ?_
  have hsigned := leaf_getSignedCode o sg w.size
  have hunsigned := leaf_getUnsignedCode o sg w.size
  exact .ite (.pure _) <| .ite (.pure _) <| .ite (.pure _) <| .ite (.pure _) <|
    .ite (hsigned 1) <| .ite (hunsigned 1) <| .ite (hsigned 2) <| .ite (hunsigned 2) <|
    .ite (hsigned 4) <| .ite (hunsigned 4) <| .ite (hsigned 8) <| .ite (hunsigned 8) (leaf_throw _)

theorem leaf_readArrayHeader : IsLeaf fun σ => (readArrayHeader o : Istream σ Nat) :=
  leaf_get.bind fun _ =>
    .ite (.pure _) (.ite (leaf_getNum o 2) (.ite (leaf_getNum o 4) (leaf_throw _)))

theorem leaf_checkArrayHeader (n : Nat) : IsLeaf fun σ => (checkArrayHeader o n : Istream σ Unit) :=
  (leaf_readArrayHeader o).bind fun _ => .ite (.pure _) (leaf_throw _)

theorem leaf_readMapHeader : IsLeaf fun σ => (readMapHeader o : Istream σ Nat) :=
  leaf_get.bind fun _ =>
    .ite (.pure _) (.ite (leaf_getNum o 2) (.ite (leaf_getNum o 4) (leaf_throw _)))

theorem leaf_readStringHeader : IsLeaf fun σ => (readStringHeader o : Istream σ Nat) :=
  leaf_get.bind fun _ => .ite (.pure _) <|
    .ite (leaf_getNum o 1) (.ite (leaf_getNum o 2) (.ite (leaf_getNum o 4) (leaf_throw _)))

theorem leaf_readBlobHeader : IsLeaf fun σ => (readBlobHeader o : Istream σ Nat) :=
  leaf_get.bind fun _ =>
    .ite (leaf_getNum o 1) (.ite (leaf_getNum o 2) (.ite (leaf_getNum o 4) (leaf_throw _)))

theorem leaf_readBlob : IsLeaf fun σ => (readBlob o : Istream σ (List UInt8)) :=
  (leaf_readBlobHeader o).bind leaf_getn

theorem leaf_getString : IsLeaf fun σ => (getString o : Istream σ (List UInt8)) := by
  have hblock : ∀ w, IsLeaf fun σ => (do let n ← getNum o w; getn eof n : Istream σ (List UInt8)) :=
    fun w => (leaf_getNum o w).bind leaf_getn
  refine leaf_get.bind fun _ => ?_
  exact .ite (leaf_getn _) (.ite (hblock 1) (.ite (hblock 2) (.ite (hblock 4) (leaf_throw _))))

theorem leaf_getBool : IsLeaf fun σ => (getBool : Istream σ Bool) :=
  leaf_get.bind fun _ => .ite (.pure _) (.ite (.pure _) (leaf_throw _))

theorem leaf_getFloat : IsLeaf fun σ => (getFloat o : Istream σ Nat) :=
  leaf_get.bind fun _ => .ite (leaf_getNum o 4) (leaf_throw _)

theorem leaf_getDouble (widen : Nat → Nat) : IsLeaf fun σ => (getDouble widen o : Istream σ Nat) :=
  leaf_get.bind fun _ =>
    .ite ((leaf_getNum o 4).bind fun _ => .pure _) (.ite (leaf_getNum o 8) (leaf_throw _))

end Plain

end Nodeoze.Bstream
