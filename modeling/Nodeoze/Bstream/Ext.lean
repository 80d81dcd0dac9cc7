import Nodeoze.Bstream.Primitives

/-!
# Extension objects

`obstream::write_ext` in its forms for a buffer, for a vector and for a pointer with a size,
`write_ext_header`, and `ibstream::read_ext_header` with `read_ext_body`.  The ladder of sizes is
spelled out in every form; the payload of one or two bytes is put byte by byte by some of them.
-/

namespace Nodeoze.Bstream

open Reader Endian

variable {σ : Type}

/-- The statements of `obstream::write_ext` for a buffer and, word for word, for a vector. -/
def writeExtBytes (o : Order) (extType : UInt8) (bs : List UInt8) : Except Fault (List Chunk) :=
  let size := bs.length
  if size = 1 then .ok [.byte Typecode.fixext1, .byte extType, .byte (bs.getD 0 0)]
  else if size = 2 then
    .ok [.byte Typecode.fixext2, .byte extType, .byte (bs.getD 0 0), .byte (bs.getD 1 0)]
  else if size = 4 then .ok [.byte Typecode.fixext4, .byte extType, .raw (bs.take 4)]
  else if size = 8 then .ok [.byte Typecode.fixext8, .byte extType, .raw (bs.take 8)]
  else if size = 16 then .ok [.byte Typecode.fixext16, .byte extType, .raw (bs.take 16)]
  else if size ≤ 0xff then
    .ok [.byte Typecode.ext8, putNum o 1 size, .byte extType, .raw bs]
  else if size ≤ 0xffff then
    .ok [.byte Typecode.ext16, putNum o 2 size, .byte extType, .raw bs]
  else if size ≤ 0xffffffff then
    .ok [.byte Typecode.ext32, putNum o 4 size, .byte extType, .raw bs]
  else .error (.system .invalidArgument)

/-- `obstream::write_ext( ext_type, buffer )` -/
def writeExtBuffer (o : Order) (extType : UInt8) (buf : List UInt8) : Except Fault (List Chunk) :=
  writeExtBytes o extType buf

/-- `obstream::write_ext( ext_type, vector )` -/
def writeExtVector (o : Order) (extType : UInt8) (vec : List UInt8) : Except Fault (List Chunk) :=
  writeExtBytes o extType vec

/-- `obstream::write_ext_header`; the check that the size is below `2 ^ 32` comes after its
conversion to `std::uint32_t`, so it never throws. -/
def writeExtHeader (o : Order) (extType : UInt8) (size : Nat) : List Chunk :=
  let n := size % 2 ^ 32
  if n = 1 then [.byte Typecode.fixext1, .byte extType]
  else if n = 2 then [.byte Typecode.fixext2, .byte extType]
  else if n = 4 then [.byte Typecode.fixext4, .byte extType]
  else if n = 8 then [.byte Typecode.fixext8, .byte extType]
  else if n = 16 then [.byte Typecode.fixext16, .byte extType]
  else if n ≤ 0xff then [.byte Typecode.ext8, putNum o 1 n, .byte extType]
  else if n ≤ 0xffff then [.byte Typecode.ext16, putNum o 2 n, .byte extType]
  else [.byte Typecode.ext32, putNum o 4 n, .byte extType]

/-- `obstream::write_ext( ext_type, data, size )` of the memory `mem` behind `data`. -/
def writeExtData (o : Order) (extType : UInt8) (mem : List UInt8) (size : Nat) : List Chunk :=
  writeExtHeader o extType size ++ [.raw (mem.take (size % 2 ^ 32))]

/-- `ibstream::read_ext_header`: the type, which is an output parameter, and the length. -/
def readExtHeader (o : Order) : Istream σ (UInt8 × Nat) := do
  let tcode ← get eof
  if tcode = Typecode.fixext1 then do
    let extType ← getNum o 1
    pure (UInt8.ofNat extType, 1)
  else if tcode = Typecode.fixext2 then do
    let extType ← getNum o 1
    pure (UInt8.ofNat extType, 2)
  else if tcode = Typecode.fixext4 then do
    let extType ← getNum o 1
    pure (UInt8.ofNat extType, 4)
  else if tcode = Typecode.fixext8 then do
    let extType ← getNum o 1
    pure (UInt8.ofNat extType, 8)
  else if tcode = Typecode.fixext16 then do
    let extType ← getNum o 1
    pure (UInt8.ofNat extType, 16)
  else if tcode = Typecode.ext8 then do
    let length ← getNum o 1
    let extType ← getNum o 1
    pure (UInt8.ofNat extType, length)
  else if tcode = Typecode.ext16 then do
    let length ← getNum o 2
    let extType ← getNum o 1
    pure (UInt8.ofNat extType, length)
  else if tcode = Typecode.ext32 then do
    let length ← getNum o 4
    let extType ← getNum o 1
    pure (UInt8.ofNat extType, length)
  else throw (.system .typeError)

theorem leaf_readExtHeader (o : Order) :
    IsLeaf fun σ => (readExtHeader o : Istream σ (UInt8 × Nat)) := by
  have htype : ∀ n, IsLeaf fun σ =>
      (do let t ← getNum o 1; pure (UInt8.ofNat t, n) : Istream σ (UInt8 × Nat)) :=
    fun n => (leaf_getNum o 1).bind fun t => .pure (UInt8.ofNat t, n)
  have hlength : ∀ w, IsLeaf fun σ =>
      (do let n ← getNum o w; let t ← getNum o 1; pure (UInt8.ofNat t, n) : Istream σ (UInt8 × Nat)) :=
    fun w => (leaf_getNum o w).bind htype
  refine leaf_get.bind fun _ => ?_
  exact .ite (htype 1) <| .ite (htype 2) <| .ite (htype 4) <| .ite (htype 8) <| .ite (htype 16) <|
    .ite (hlength 1) <| .ite (hlength 2) <| .ite (hlength 4) (leaf_throw _)

/-- `ibstream::read_ext_body` -/
def readExtBody (nbytes : Nat) : Istream σ (List UInt8) := getn eof nbytes

/-- `read_ext_header`, then `read_ext_body` of the length that it returned. -/
def readExt (o : Order) : Istream σ (UInt8 × List UInt8) := do
  let header ← readExtHeader o
  let body ← readExtBody header.2
  pure (header.1, body)

/-- The type byte of an extension object, in front of whatever follows it. -/
theorem reads_extType (o : Order) (extType : UInt8) (n : Nat) (s : σ) :
    Reads eof (do let t ← getNum o 1; pure (UInt8.ofNat t, n)) s [.byte extType] (extType, n) s := by
  have hread := Reads.then_pure (fun t => (UInt8.ofNat t, n))
    (reads_getNum o (show extType.toNat < 256 ^ 1 by have := extType.toNat_lt; omega) s)
  simpa [putNum] using hread

theorem reads_readExtHeader (o : Order) (extType : UInt8) {n : Nat} (hn : n < 2 ^ 32) (s : σ) :
    Reads eof (readExtHeader o) s (writeExtHeader o extType n) (extType, n) s := by
  simp only [writeExtHeader, Nat.mod_eq_of_lt hn]
  split_ifs with h1 h2 h4 h8 h16 hbyte hword
  · subst h1
    exact reads_code (by simpa using reads_extType o extType 1 s)
  · subst h2
    exact reads_code (by simpa using reads_extType o extType 2 s)
  · subst h4
    exact reads_code (by simpa using reads_extType o extType 4 s)
  · subst h8
    exact reads_code (by simpa using reads_extType o extType 8 s)
  · subst h16
    exact reads_code (by simpa using reads_extType o extType 16 s)
  · refine reads_code ?_
    simpa using Reads.bind (reads_getNum o (show n < 256 ^ 1 by omega) s) (reads_extType o extType n s)
  · refine reads_code ?_
    simpa using Reads.bind (reads_getNum o (show n < 256 ^ 2 by omega) s) (reads_extType o extType n s)
  · refine reads_code ?_
    simpa using Reads.bind (reads_getNum o (show n < 256 ^ 4 by omega) s) (reads_extType o extType n s)

theorem reads_readExt (o : Order) (extType : UInt8) {bs : List UInt8} (hn : bs.length < 2 ^ 32)
    (s : σ) : Reads eof (readExt o) s (writeExtHeader o extType bs.length ++ [.raw bs])
      (extType, bs) s :=
  Reads.bind (reads_readExtHeader o extType hn s)
    ((Reads.getn bs s).then_pure fun body => (extType, body))

theorem eq_singleton_of_length {bs : List UInt8} (h : bs.length = 1) : [bs.getD 0 0] = bs := by
  obtain ⟨b, rfl⟩ := List.length_eq_one_iff.mp h
  rfl

theorem eq_pair_of_length {bs : List UInt8} (h : bs.length = 2) :
    [bs.getD 0 0, bs.getD 1 0] = bs := by
  obtain ⟨b, c, rfl⟩ := List.length_eq_two.mp h
  rfl

/-- A payload that fits is written behind its header. -/
theorem writeExtBytes_eq (o : Order) (extType : UInt8) {bs : List UInt8} (hn : bs.length < 2 ^ 32) :
    ∃ ts, writeExtBytes o extType bs = .ok ts ∧
      bytes ts = bytes (writeExtHeader o extType bs.length) ++ bs := by
  have htake : ∀ n, bs.length = n → bs.take n = bs := fun n h => List.take_of_length_le h.le
  simp only [writeExtBytes, writeExtHeader, Nat.mod_eq_of_lt hn]
  by_cases h1 : bs.length = 1
  · rw [if_pos h1, if_pos h1]
    refine ⟨_, rfl, ?_⟩
    simpa [bytes, Chunk.bytes] using eq_singleton_of_length h1
  rw [if_neg h1, if_neg h1]
  by_cases h2 : bs.length = 2
  · rw [if_pos h2, if_pos h2]
    refine ⟨_, rfl, ?_⟩
    simpa [bytes, Chunk.bytes] using eq_pair_of_length h2
  rw [if_neg h2, if_neg h2]
  by_cases h4 : bs.length = 4
  · rw [if_pos h4, if_pos h4]
    refine ⟨_, rfl, ?_⟩
    simp [bytes, Chunk.bytes, htake 4 h4]
  rw [if_neg h4, if_neg h4]
  by_cases h8 : bs.length = 8
  · rw [if_pos h8, if_pos h8]
    refine ⟨_, rfl, ?_⟩
    simp [bytes, Chunk.bytes, htake 8 h8]
  rw [if_neg h8, if_neg h8]
  by_cases h16 : bs.length = 16
  · rw [if_pos h16, if_pos h16]
    refine ⟨_, rfl, ?_⟩
    simp [bytes, Chunk.bytes, htake 16 h16]
  rw [if_neg h16, if_neg h16]
  by_cases hbyte : bs.length ≤ 0xff
  · rw [if_pos hbyte, if_pos hbyte]
    exact ⟨_, rfl, by simp [bytes, Chunk.bytes]⟩
  rw [if_neg hbyte, if_neg hbyte]
  by_cases hword : bs.length ≤ 0xffff
  · rw [if_pos hword, if_pos hword]
    exact ⟨_, rfl, by simp [bytes, Chunk.bytes]⟩
  have hdword : bs.length ≤ 0xffffffff := by omega
  rw [if_neg hword, if_neg hword, if_pos hdword]
  exact ⟨_, rfl, by simp [bytes, Chunk.bytes]⟩

/-- All forms put the same bytes on the stream, and the reader takes exactly these back. -/
theorem writeExt_round_trip (o : Order) (extType : UInt8) (bs : List UInt8)
    (hn : bs.length < 2 ^ 32) :
    ∃ ts us, writeExtBuffer o extType bs = .ok ts ∧ writeExtVector o extType bs = .ok us ∧
      bytes us = bytes ts ∧ bytes (writeExtData o extType bs bs.length) = bytes ts ∧
      bytes (writeExtHeader o extType bs.length) ++ bs = bytes ts ∧
      ∀ s : σ, Takes (readExt o) s (bytes ts) (extType, bs) s := by
  obtain ⟨ts, hts, hbytes⟩ := writeExtBytes_eq o extType hn
  refine ⟨ts, ts, hts, hts, rfl, ?_, hbytes.symm, fun s => ?_⟩
  · rw [hbytes, writeExtData, Nat.mod_eq_of_lt hn, List.take_length, bytes_append]
    simp [bytes, Chunk.bytes]
  · have htakes := (reads_readExt o extType hn s).takes
    rw [bytes_append, bytes_cons, bytes_nil, List.append_nil] at htakes
    rw [hbytes]
    exact htakes

/-- Three bytes of type `5`. -/
theorem writeExt_round_trip_three : ∃ ts us, writeExtBuffer .big 5 [1, 2, 3] = .ok ts ∧
    writeExtVector .big 5 [1, 2, 3] = .ok us ∧ bytes us = bytes ts ∧
    bytes (writeExtData .big 5 [1, 2, 3] 3) = bytes ts ∧
    bytes (writeExtHeader .big 5 3) ++ [1, 2, 3] = bytes ts ∧
    ∀ s : Unit, Takes (readExt .big) s (bytes ts) (5, [1, 2, 3]) s :=
  writeExt_round_trip .big 5 [1, 2, 3] (by decide)

end Nodeoze.Bstream
