import Nodeoze.Lib.Msgpack
import Nodeoze.Bstream.Primitives
import Nodeoze.Buffer.Bufwriter

/-!
# Copying a msgpack object out of a stream

`ibstream::get_msgpack_obj_buf` copies one object, byte for byte, into the `bufwriter` of the
stream and returns a copy of its buffer.  `ingest` is a second decoder of the format that only
follows the lengths; the number of objects in a map is computed in 32 bits.

An object with a map of `2^31` pairs or more is left before its end.  To say what happens then,
the objects still to come are seen as a forest: after `k` calls on a forest of `n` objects at
least `n - k` objects are left, and exactly these if no map was too large.  The loop of an array
or a map is such a sequence of calls, so the argument is one induction on the size of the object.
-/

namespace Nodeoze.Bstream

open Reader Endian RefHeap Buffer Msgpack

/-- What the reading side changes besides the stream: the heap, and `m_bufwriter`. -/
structure World where
  heap : Heap
  writer : Option Bufwriter

section Ingest

variable (mem : Nat → Nat → UInt8) (o : Order)

/-- Run an operation on the writer. -/
def onWriter (f : Heap → Bufwriter → Option (Heap × Bufwriter)) : Istream World Unit := do
  let s ← getUser
  match s.writer with
  | none => throw .undefined
  | some w =>
    match f s.heap w with
    | none => throw .undefined
    | some (H, w) => setUser ⟨H, some w⟩

/-- `os.putn( src )`. -/
def osPutn (src : List UInt8) : Istream World Unit := onWriter fun H w => Bufwriter.putn mem H w src

/-- `os.put( b )`. -/
def osPut (b : UInt8) : Istream World Unit := onWriter fun H w => Bufwriter.put mem H w b

/-- `os.put( get() )`. -/
def copyByte : Istream World Unit := do
  let b ← get eof
  osPut mem b

/-- `getn( os.accommodate( len ), len ); os.advance( len )`. -/
def copyn (len : Nat) : Istream World Unit := do
  onWriter fun H w => (Bufwriter.accommodate mem H w len).map (·, w)
  let bytes ← getn eof len
  onWriter fun H w => (rputn H w.buf w.pos bytes).map (·, w.advance len)

/-- `bend::endian_reverse` of a `w`-byte number, on a little-endian host. -/
def endianReverse (w n : Nat) : Nat := Order.little.value (Order.big.bytes w n)

/-- Put a `w`-byte length in big-endian order. -/
def putLength (w len : Nat) : Istream World Unit :=
  if w = 1 then osPut mem (UInt8.ofNat len)
  else
    let lenBigend := endianReverse w len
    osPutn mem (Order.little.bytes w lenBigend)

/-- Take a `w`-byte length and put it. -/
def copyLength (w : Nat) : Istream World Nat := do
  let len ← getNum o w
  putLength mem w len
  pure len

/-- `for ( auto i = 0u; i < n; ++i )`. -/
def times (n : Nat) (p : Istream World Unit) : Istream World Unit := loop (fun _ => p) n ()

/-- `ibstream::ingest` behind the type code; `again` is the recursive call. -/
def ingestCode (again : Istream World Unit) (tcode : UInt8) : Istream World Unit :=
  if tcode ≤ Typecode.positiveFixintMax ∨ Typecode.negativeFixintMin ≤ tcode then pure ()
  else if tcode ≤ Typecode.fixmapMax then times ((tcode &&& 0x0f).toNat * 2) again
  else if tcode ≤ Typecode.fixarrayMax then times (tcode &&& 0x0f).toNat again
  else if tcode ≤ Typecode.fixstrMax then copyn mem (tcode &&& 0x1f).toNat
  else if tcode = Typecode.array16 then do
    let len ← copyLength mem o 2
    times len again
  else if tcode = Typecode.array32 then do
    let len ← copyLength mem o 4
    times len again
  else if tcode = Typecode.map16 then do
    let len ← copyLength mem o 2
    times (len * 2) again
  else if tcode = Typecode.map32 then do
    let len ← copyLength mem o 4
    -- both operands are `std::uint32_t`
    times (len * 2 % 2 ^ 32) again
  else if tcode = Typecode.nil ∨ tcode = Typecode.unused ∨ tcode = Typecode.boolFalse ∨
      tcode = Typecode.boolTrue then pure ()
  else if tcode = Typecode.uint8 ∨ tcode = Typecode.int8 then copyByte mem
  else if tcode = Typecode.uint16 ∨ tcode = Typecode.int16 then do
    copyByte mem
    copyByte mem
  else if tcode = Typecode.uint32 ∨ tcode = Typecode.int32 ∨ tcode = Typecode.float32 then do
    copyByte mem
    copyByte mem
    copyByte mem
    copyByte mem
  else if tcode = Typecode.uint64 ∨ tcode = Typecode.int64 ∨ tcode = Typecode.float64 then
    copyn mem 8
  else if tcode = Typecode.str8 ∨ tcode = Typecode.bin8 then do
    let len ← copyLength mem o 1
    copyn mem len
  else if tcode = Typecode.str16 ∨ tcode = Typecode.bin16 then do
    let len ← copyLength mem o 2
    copyn mem len
  else if tcode = Typecode.str32 ∨ tcode = Typecode.bin32 then do
    let len ← copyLength mem o 4
    copyn mem len
  else if tcode = Typecode.fixext1 then do
    copyByte mem
    copyByte mem
  else if tcode = Typecode.fixext2 then do
    copyByte mem
    copyByte mem
    copyByte mem
  else if tcode = Typecode.fixext4 then do
    copyByte mem
    copyByte mem
    copyByte mem
    copyByte mem
    copyByte mem
  else if tcode = Typecode.fixext8 then copyn mem (1 + 8)
  else if tcode = Typecode.fixext16 then copyn mem (1 + 16)
  else if tcode = Typecode.ext8 then do
    let len ← copyLength mem o 1
    copyByte mem
    copyn mem len
  else if tcode = Typecode.ext16 then do
    let len ← copyLength mem o 2
    copyByte mem
    copyn mem len
  else if tcode = Typecode.ext32 then do
    let len ← copyLength mem o 4
    copyByte mem
    copyn mem len
  else pure ()

/-- `ibstream::ingest`. -/
def ingest : Nat → Istream World Unit
  | 0 => throw .fuel
  | fuel + 1 => do
    let tcode ← get eof
    osPut mem tcode
    ingestCode mem o (ingest fuel) tcode

/-- The writer is allocated at most once, and starts over for every object. -/
def openWriter : Istream World Unit := do
  let s ← getUser
  match s.writer with
  | none =>
    let created := Bufwriter.create mem s.heap (16 * 1024)
    setUser ⟨created.1, some created.2.reset⟩
  | some w => setUser ⟨s.heap, some w.reset⟩

/-- `m_bufwriter->get_buffer()`: the slot of the buffer. -/
def takeBuffer : Istream World Nat := do
  let s ← getUser
  onWriter fun H w => (Bufwriter.getBuffer mem H w).map (·, w)
  pure s.heap.slots

/-- `ibstream::get_msgpack_obj_buf`: the slot of the buffer it returns.  Every level of the
recursion takes a byte, so it is no deeper than the bytes that are left. -/
def getMsgpackObjBuf : Istream World Nat := fun junk st => (do
  openWriter mem
  ingest mem o (st.rest.length + 1)
  takeBuffer mem : Istream World Nat) junk st

end Ingest

/-! ### Copying bytes -/

/-- The stream has a writer, and it has written `bytes`. -/
def Wrote (s : World) (bytes : List UInt8) : Prop :=
  ∃ w, s.writer = some w ∧ Bufwriter.Written s.heap w bytes

/-- The writer is the same and nothing outside its buffer has changed. -/
def Kept (s s' : World) : Prop :=
  ∃ w w', s.writer = some w ∧ s'.writer = some w' ∧ w'.buf = w.buf ∧ Frame w.buf s.heap s'.heap

theorem Kept.trans {s s' s'' : World} (h : Kept s s') (h' : Kept s' s'') : Kept s s'' := by
  obtain ⟨w, w', hw, hw', hbuf, hf⟩ := h
  obtain ⟨v, v', hv, hv', hbuf', hf'⟩ := h'
  rw [hw'] at hv
  obtain rfl := Option.some.inj hv
  exact ⟨w, v', hw, hv', hbuf'.trans hbuf, hf.trans (hbuf ▸ hf')⟩

theorem Wrote.kept {s : World} {bytes : List UInt8} (h : Wrote s bytes) : Kept s s := by
  obtain ⟨w, hw, -⟩ := h
  exact ⟨w, w, hw, hw, rfl, Frame.refl _ _⟩

variable {mem : Nat → Nat → UInt8} {o : Order} {α β : Type}

/-- `p` takes `bs` from the stream, returns `a`, and has the writer append `out`. -/
def Moves (p : Istream World α) (bs : List UInt8) (a : α) (out : List UInt8) : Prop :=
  ∀ s w, Wrote s w → ∃ s', Takes p s bs a s' ∧ Wrote s' (w ++ out) ∧ Kept s s'

/-- `p` copies `bs` from the stream to the writer. -/
def Copies (p : Istream World α) (bs : List UInt8) (a : α) : Prop := Moves p bs a bs

theorem Moves.bind {p : Istream World α} {f : α → Istream World β} {bs cs out out' : List UInt8}
    {a : α} {b : β} (hp : Moves p bs a out) (hf : Moves (f a) cs b out') :
    Moves (p >>= f) (bs ++ cs) b (out ++ out') := by
  intro s w hw
  obtain ⟨s₁, ht₁, hw₁, hk₁⟩ := hp s w hw
  obtain ⟨s₂, ht₂, hw₂, hk₂⟩ := hf s₁ _ hw₁
  refine ⟨s₂, ht₁.bind ht₂, ?_, hk₁.trans hk₂⟩
  rwa [← List.append_assoc]

theorem Copies.bind {p : Istream World α} {f : α → Istream World β} {bs cs : List UInt8} {a : α}
    {b : β} (hp : Copies p bs a) (hf : Copies (f a) cs b) : Copies (p >>= f) (bs ++ cs) b :=
  Moves.bind hp hf

theorem moves_pure (a : α) : Moves (pure a) [] a [] := by
  intro s w hw
  exact ⟨s, Takes.pure a s, by rwa [List.append_nil], hw.kept⟩

/-- Reading does not concern the writer. -/
theorem moves_read {p : Istream World α} {bs : List UInt8} {a : α} (hp : ∀ s, Takes p s bs a s) :
    Moves p bs a [] := by
  intro s w hw
  exact ⟨s, hp s, by rwa [List.append_nil], hw.kept⟩

theorem takes_onWriter {f : Heap → Bufwriter → Option (Heap × Bufwriter)} {H H' : Heap}
    {w w' : Bufwriter} (hf : f H w = some (H', w')) :
    Takes (onWriter f) ⟨H, some w⟩ [] () ⟨H', some w'⟩ := by
  intro junk pos r n
  unfold onWriter
  rw [bind_ok rfl]
  simp only [hf]
  rfl

theorem moves_osPutn (src : List UInt8) : Moves (osPutn mem src) [] () src := by
  rintro ⟨H, x⟩ bytes ⟨w, rfl, hw⟩
  obtain ⟨H', hput, hw', hf⟩ := hw.putn mem src
  exact ⟨⟨H', some (w.advance src.length)⟩, takes_onWriter hput, ⟨_, rfl, hw'⟩,
    ⟨w, _, rfl, rfl, rfl, hf⟩⟩

theorem moves_osPut (b : UInt8) : Moves (osPut mem b) [] () [b] := moves_osPutn [b]

theorem copies_copyByte (b : UInt8) : Copies (copyByte mem) [b] () :=
  (moves_read fun s => (Reads.get b s).takes).bind (moves_osPut b)

theorem copies_copyn {bs : List UInt8} {n : Nat} (hn : bs.length = n) :
    Copies (copyn mem n) bs () := by
  subst hn
  rintro ⟨H, x⟩ bytes ⟨w, rfl, hw⟩
  obtain ⟨H₁, H', hacc, hput, hw', hf⟩ := hw.store mem bs
  refine ⟨⟨H', some (w.advance bs.length)⟩, ?_, ⟨_, rfl, hw'⟩, ⟨w, _, rfl, rfl, rfl, hf⟩⟩
  have hroom : Takes (onWriter fun H w => (Bufwriter.accommodate mem H w bs.length).map (·, w))
      ⟨H, some w⟩ [] () ⟨H₁, some w⟩ :=
    takes_onWriter (by rw [hacc]; rfl)
  have hstore : Takes (onWriter fun H w => (rputn H w.buf w.pos bs).map (·, w.advance bs.length))
      ⟨H₁, some w⟩ [] () ⟨H', some (w.advance bs.length)⟩ :=
    takes_onWriter (by rw [hput]; rfl)
  have hget : Takes (getn eof bs.length : Istream World _) ⟨H₁, some w⟩ bs bs ⟨H₁, some w⟩ := by
    have hreads : Reads eof (getn eof bs.length) (⟨H₁, some w⟩ : World) [.raw bs] bs _ :=
      Reads.getn bs _
    simpa [Reader.bytes, Chunk.bytes] using hreads.takes
  have hall := hroom.bind (f := fun _ => getn eof bs.length >>= fun bytes =>
    onWriter fun H w => (rputn H w.buf w.pos bytes).map (·, w.advance bs.length))
    (hget.bind (f := fun bytes =>
      onWriter fun H w => (rputn H w.buf w.pos bytes).map (·, w.advance bs.length)) hstore)
  simp only [List.nil_append, List.append_nil] at hall
  exact hall

/-- On a little-endian host the reversed number has the bytes of the big-endian one. -/
theorem bytes_endianReverse (w n : Nat) :
    Order.little.bytes w (endianReverse w n) = Order.big.bytes w n := by
  have := leBytes_leValue (Order.big.bytes w n)
  rwa [Order.length_bytes] at this

theorem copies_copyLength {w n : Nat} (hn : n < 256 ^ w) :
    Copies (copyLength mem .big w) (Order.big.bytes w n) n := by
  have hread : Moves (getNum .big w) (Order.big.bytes w n) n [] := moves_read fun s => by
    have := (reads_getNum .big hn s).takes
    by_cases hw : w = 1
    · subst hw
      simpa [putNum, Reader.bytes, Chunk.bytes, Order.bytes, leBytes] using this
    · simpa [putNum, Reader.bytes, Chunk.bytes, hw] using this
  have hput : Moves (putLength mem w n) [] () (Order.big.bytes w n) := by
    unfold putLength
    by_cases hw : w = 1
    · subst hw
      exact moves_osPut (UInt8.ofNat n)
    · rw [if_neg hw, ← bytes_endianReverse]
      exact moves_osPutn _
  have hall := hread.bind (f := fun len => putLength mem w len >>= fun _ => pure len)
    (hput.bind (moves_pure n))
  simp only [List.nil_append, List.append_nil] at hall
  exact hall

/-! ### Copying a leaf -/

theorem copies_ingest {fuel : Nat} {code : UInt8} {rest : List UInt8}
    (h : Copies (ingestCode mem o (ingest mem o fuel) code) rest ()) :
    Copies (ingest mem o (fuel + 1)) (code :: rest) () := by
  have hput : Moves (osPut mem code >>= fun _ => ingestCode mem o (ingest mem o fuel) code) rest ()
      (code :: rest) := (moves_osPut code).bind h
  exact (moves_read fun s => (Reads.get code s).takes).bind (f := fun tcode => do
    osPut mem tcode
    ingestCode mem o (ingest mem o fuel) tcode) hput

/-- A type code, a length in `w` bytes, and that many bytes. -/
theorem copies_blob {w : Nat} {bs : List UInt8} (hn : bs.length < 256 ^ w) :
    Copies (do let len ← copyLength mem .big w; copyn mem len) (Order.big.bytes w bs.length ++ bs)
      () :=
  (copies_copyLength hn).bind (copies_copyn rfl)

/-- A length in `w` bytes, a type byte, and that many bytes. -/
theorem copies_ext {w : Nat} {t : UInt8} {bs : List UInt8} (hn : bs.length < 256 ^ w) :
    Copies (do let len ← copyLength mem .big w; copyByte mem; copyn mem len)
      (Order.big.bytes w bs.length ++ t :: bs) () :=
  (copies_copyLength hn).bind (f := fun len => do copyByte mem; copyn mem len)
    ((copies_copyByte t).bind (copies_copyn rfl))

theorem Copies.cons {p : Istream World Unit} {bs : List UInt8} (b : UInt8) (h : Copies p bs ()) :
    Copies (do copyByte mem; p) (b :: bs) () :=
  (copies_copyByte b).bind h

theorem copies_one {bs : List UInt8} (h : bs.length = 1) : Copies (copyByte mem) bs () := by
  obtain ⟨b, rfl⟩ := List.length_eq_one_iff.mp h
  exact copies_copyByte b

theorem copies_two {bs : List UInt8} (h : bs.length = 2) :
    Copies (do copyByte mem; copyByte mem) bs () := by
  obtain ⟨b, c, rfl⟩ := List.length_eq_two.mp h
  exact (copies_copyByte c).cons b

theorem copies_four {bs : List UInt8} (h : bs.length = 4) :
    Copies (do copyByte mem; copyByte mem; copyByte mem; copyByte mem) bs () := by
  match bs, h with
  | b :: c :: ds, h => exact ((copies_two (by simpa using h)).cons c).cons b

theorem fixstr_code_not (n : Fin 32) :
    ¬ (0xa0 ||| UInt8.ofNat n ≤ Typecode.positiveFixintMax ∨
        Typecode.negativeFixintMin ≤ 0xa0 ||| UInt8.ofNat n) ∧
      ¬ 0xa0 ||| UInt8.ofNat n ≤ Typecode.fixmapMax ∧
      ¬ 0xa0 ||| UInt8.ofNat n ≤ Typecode.fixarrayMax := by
  revert n; decide

theorem copies_leaf (fuel : Nat) {l : Leaf} (hl : l.WF) :
    Copies (ingest mem .big (fuel + 1)) l.encode () := by
  cases l with
  | fixint b =>
    have hl : b ≤ Typecode.positiveFixintMax ∨ Typecode.negativeFixintMin ≤ b := hl
    refine copies_ingest ?_
    unfold ingestCode
    rw [if_pos hl]
    exact moves_pure ()
  | nil => exact copies_ingest (moves_pure ())
  | bool b =>
    refine copies_ingest ?_
    cases b
    · exact moves_pure ()
    · exact moves_pure ()
  | num k bs =>
    refine copies_ingest ?_
    cases k with
    | uint8 | int8 => exact copies_one hl
    | uint16 | int16 => exact copies_two hl
    | float32 | uint32 | int32 => exact copies_four hl
    | float64 | uint64 | int64 => exact copies_copyn hl
  | str f bs =>
    cases f with
    | fix =>
      obtain ⟨-, hmax, hval⟩ := fixstr_code ⟨bs.length, hl⟩
      obtain ⟨h1, h2, h3⟩ := fixstr_code_not ⟨bs.length, hl⟩
      refine copies_ingest ?_
      unfold ingestCode
      rw [if_neg h1, if_neg h2, if_neg h3, if_pos hmax]
      exact copies_copyn hval.symm
    | w8 => exact copies_ingest (copies_blob hl)
    | w16 => exact copies_ingest (copies_blob hl)
    | w32 => exact copies_ingest (copies_blob hl)
  | bin f bs =>
    cases f with
    | fix => exact absurd rfl hl.1
    | w8 => exact copies_ingest (copies_blob hl.2)
    | w16 => exact copies_ingest (copies_blob hl.2)
    | w32 => exact copies_ingest (copies_blob hl.2)
  | ext f t bs =>
    cases f with
    | fix =>
      have hlen : bs.length ∈ [1, 2, 4, 8, 16] := hl
      refine copies_ingest ?_
      simp only [List.mem_cons, List.not_mem_nil, or_false] at hlen
      rcases hlen with h | h | h | h | h
      · rw [h]
        exact (copies_one h).cons t
      · rw [h]
        exact (copies_two h).cons t
      · rw [h]
        exact (copies_four h).cons t
      · rw [h]
        exact copies_copyn (by simp [h])
      · rw [h]
        exact copies_copyn (by simp [h])
    | w8 => exact copies_ingest (copies_ext hl)
    | w16 => exact copies_ingest (copies_ext hl)
    | w32 => exact copies_ingest (copies_ext hl)

/-! ### Copying a forest -/

/-- The pairs of a map whose number of objects still fits 32 bits. -/
abbrev pairLimit : Nat := 2 ^ 31

/-- After `k` calls on the forest `F` the forest `R` is left: no fewer objects than there should
be, exactly the right ones if the objects met were all small enough, and more otherwise. -/
structure Left (k : Nat) (F R : List Obj) : Prop where
  enough : F.length ≤ R.length + k
  exact : (∀ t ∈ F.take k, t.MapsBelow pairLimit) → R = F.drop k
  more : (∃ t ∈ F.take k, ¬ t.MapsBelow pairLimit) → F.length < R.length + k

theorem Left.zero (F : List Obj) : Left 0 F F :=
  ⟨by omega, fun _ => rfl, fun h => by simp at h⟩

/-- One call takes the first object; what it leaves of the object is in front of the others. -/
theorem Left.succ {k : Nat} {t : Obj} {F G R : List Obj} (hG : G = [] ↔ t.MapsBelow pairLimit)
    (h : Left k (G ++ F) R) : Left (k + 1) (t :: F) R := by
  have henough := h.enough
  rw [List.length_append] at henough
  by_cases ht : t.MapsBelow pairLimit
  · obtain rfl := hG.mpr ht
    refine ⟨?_, fun hall => ?_, fun hsome => ?_⟩
    · rw [List.length_cons]
      simp only [List.length_nil] at henough
      omega
    · exact h.exact fun u hu => hall u (List.mem_cons_of_mem _ hu)
    · obtain ⟨u, hu, hbad⟩ := hsome
      rcases List.mem_cons.mp hu with rfl | hu
      · exact absurd ht hbad
      · have := h.more ⟨u, hu, hbad⟩
        rw [List.length_cons]
        simp only [List.nil_append] at this
        omega
  · have hpos : 0 < G.length := by
      rw [List.length_pos_iff]
      exact fun hnil => ht (hG.mp hnil)
    refine ⟨?_, fun hall => absurd (hall t List.mem_cons_self) ht, fun _ => ?_⟩
    · rw [List.length_cons]
      omega
    · rw [List.length_cons]
      omega

/-- What one call does with the object `t`: it copies a part of it and leaves the objects `G`,
none of them if every map in `t` is small enough. -/
def Ingests (mem : Nat → Nat → UInt8) (fuel : Nat) (t : Obj) : Prop :=
  ∃ bs G, t.encode = bs ++ Obj.encodeAll G ∧ Copies (ingest mem .big fuel) bs () ∧
    (∀ g ∈ G, g.WF ∧ g.nodes ≤ t.nodes) ∧ (G = [] ↔ t.MapsBelow pairLimit)

theorem times_succ (k : Nat) (p : Istream World Unit) : times (k + 1) p = p >>= fun _ => times k p :=
  rfl

theorem ingests_forest {fuel N : Nat}
    (hobj : ∀ t : Obj, t.WF → t.nodes ≤ N → Ingests mem fuel t) (k : Nat) (F : List Obj)
    (hk : k ≤ F.length) (hF : ∀ t ∈ F, t.WF ∧ t.nodes ≤ N) :
    ∃ bs R, Obj.encodeAll F = bs ++ Obj.encodeAll R ∧
      Copies (times k (ingest mem .big fuel)) bs () ∧ (∀ g ∈ R, g.WF ∧ g.nodes ≤ N) ∧
      Left k F R := by
  -- induction on the calls, for every forest: an object that is left early puts its rest in front
  induction k generalizing F with
  | zero => exact ⟨[], F, rfl, moves_pure (), hF, Left.zero F⟩
  | succ k ih =>
    obtain _ | ⟨t, F⟩ := F
    · simp at hk
    · obtain ⟨htwf, htn⟩ := hF t List.mem_cons_self
      obtain ⟨bs, G, henc, hcopy, hG, hnil⟩ := hobj t htwf htn
      have hF' : ∀ u ∈ G ++ F, u.WF ∧ u.nodes ≤ N := by
        intro u hu
        rcases List.mem_append.mp hu with hu | hu
        · exact ⟨(hG u hu).1, (hG u hu).2.trans htn⟩
        · exact hF u (List.mem_cons_of_mem _ hu)
      have hk' : k ≤ (G ++ F).length := by
        rw [List.length_append]
        rw [List.length_cons] at hk
        omega
      obtain ⟨cs, R, hrest, hcopies, hR, hleft⟩ := ih (G ++ F) hk' hF'
      refine ⟨bs ++ cs, R, ?_, ?_, hR, hleft.succ hnil⟩
      · rw [Obj.encodeAll, henc, List.append_assoc, ← Obj.encodeAll_append, hrest,
          List.append_assoc]
      · rw [times_succ]
        exact hcopy.bind hcopies

theorem fixarray_code_not (n : Fin 16) :
    ¬ (0x90 ||| UInt8.ofNat n ≤ Typecode.positiveFixintMax ∨
        Typecode.negativeFixintMin ≤ 0x90 ||| UInt8.ofNat n) ∧
      ¬ 0x90 ||| UInt8.ofNat n ≤ Typecode.fixmapMax := by
  revert n; decide

theorem fixmap_code (n : Fin 16) :
    ¬ (0x80 ||| UInt8.ofNat n ≤ Typecode.positiveFixintMax ∨
        Typecode.negativeFixintMin ≤ 0x80 ||| UInt8.ofNat n) ∧
      0x80 ||| UInt8.ofNat n ≤ Typecode.fixmapMax ∧
      ((0x80 ||| UInt8.ofNat n) &&& 0x0f).toNat = n := by
  revert n; decide

theorem copies_array {fuel n : Nat} {f : Form} {cs : List UInt8} (hf : f ≠ .w8)
    (hn : f.Fits (· < 16) n) (h : Copies (times n (ingest mem .big fuel)) cs ()) :
    Copies (ingest mem .big (fuel + 1)) (arrayHeader n f ++ cs) () := by
  cases f with
  | fix =>
    obtain ⟨-, hmax, hval⟩ := fixarray_code ⟨n, hn⟩
    obtain ⟨h1, h2⟩ := fixarray_code_not ⟨n, hn⟩
    refine copies_ingest ?_
    unfold ingestCode
    simp only at hmax hval h1 h2
    rw [if_neg h1, if_neg h2, if_pos hmax, hval]
    exact h
  | w8 => exact absurd rfl hf
  | w16 => exact copies_ingest ((copies_copyLength (w := 2) hn).bind h)
  | w32 => exact copies_ingest ((copies_copyLength (w := 4) hn).bind h)

/-- How many objects the loop of a map with `n` pairs asks for. -/
def mapCount (n : Nat) : Form → Nat
  | .w32 => n * 2 % 2 ^ 32
  | _ => n * 2

theorem copies_map {fuel n : Nat} {f : Form} {cs : List UInt8} (hf : f ≠ .w8)
    (hn : f.Fits (· < 16) n) (h : Copies (times (mapCount n f) (ingest mem .big fuel)) cs ()) :
    Copies (ingest mem .big (fuel + 1)) (mapHeader n f ++ cs) () := by
  cases f with
  | fix =>
    obtain ⟨h1, hmax, hval⟩ := fixmap_code ⟨n, hn⟩
    refine copies_ingest ?_
    unfold ingestCode
    simp only at hmax hval h1
    rw [if_neg h1, if_pos hmax, hval]
    exact h
  | w8 => exact absurd rfl hf
  | w16 => exact copies_ingest ((copies_copyLength (w := 2) hn).bind h)
  | w32 => exact copies_ingest ((copies_copyLength (w := 4) hn).bind h)

theorem Left.nil_iff {F R : List Obj} (h : Left F.length F R) :
    R = [] ↔ ∀ t ∈ F, t.MapsBelow pairLimit := by
  constructor
  · rintro rfl
    by_contra hbad
    push Not at hbad
    have := h.more (by rwa [List.take_length])
    simp at this
  · intro hall
    rw [h.exact (by rwa [List.take_length]), List.drop_length]

/-- An object whose header is followed by objects, `k` of which the loop asks for. -/
theorem Ingests.items {fuel k : Nat} {t : Obj} {header : List UInt8} {items : List Obj}
    (henc : t.encode = header ++ Obj.encodeAll items) (hnodes : t.nodes = Obj.nodesAll items + 1)
    (hwf : Obj.WFAll items) (hk : k ≤ items.length)
    (hobj : ∀ u : Obj, u.WF → u.nodes ≤ Obj.nodesAll items → Ingests mem fuel u)
    (hcopy : ∀ cs, Copies (times k (ingest mem .big fuel)) cs () →
      Copies (ingest mem .big (fuel + 1)) (header ++ cs) ())
    (hbelow : ∀ R, Left k items R → (R = [] ↔ t.MapsBelow pairLimit)) :
    Ingests mem (fuel + 1) t := by
  obtain ⟨cs, R, hrest, hcopies, hR, hleft⟩ := ingests_forest hobj k items hk fun u hu =>
    ⟨(Obj.wfAll_iff items).mp hwf u hu, Obj.nodes_le_nodesAll hu⟩
  refine ⟨header ++ cs, R, ?_, hcopy cs hcopies, fun g hg => ⟨(hR g hg).1, ?_⟩, hbelow R hleft⟩
  · rw [henc, hrest, List.append_assoc]
  · have := (hR g hg).2
    omega

/-- The objects of a map: the loop asks for all of them exactly if their number fits 32 bits. -/
theorem left_map_iff {f : Form} {items R : List Obj} (heven : items.length % 2 = 0)
    (hfits : f.Fits (· < 16) (items.length / 2))
    (hleft : Left (mapCount (items.length / 2) f) items R) :
    R = [] ↔ (Obj.map f items).MapsBelow pairLimit := by
  have hall : mapCount (items.length / 2) f = items.length →
      (R = [] ↔ ∀ t ∈ items, t.MapsBelow pairLimit) := fun hcount => by
    rw [hcount] at hleft
    exact hleft.nil_iff
  simp only [Obj.MapsBelow, Obj.mapsBelowAll_iff]
  by_cases hbig : f = .w32 ∧ pairLimit ≤ items.length / 2
  · obtain ⟨rfl, hbig⟩ := hbig
    -- the count wraps around, so objects are left whatever they are
    have hlt : mapCount (items.length / 2) .w32 < items.length := by
      have hfits : items.length / 2 < 256 ^ 4 := hfits
      simp only [mapCount, pairLimit] at hbig ⊢
      omega
    have := hleft.enough
    constructor
    · rintro rfl
      simp only [List.length_nil] at this
      omega
    · intro hsmall
      have := hsmall.1 rfl
      omega
  · have hcount : mapCount (items.length / 2) f = items.length := by
      cases f with
      | w32 =>
        have hsmall : ¬ 2 ^ 31 ≤ items.length / 2 := fun h => hbig ⟨rfl, h⟩
        simp only [mapCount]
        omega
      | _ =>
        simp only [mapCount]
        omega
    rw [hall hcount]
    constructor
    · exact fun h => ⟨fun hw => by by_contra hge; exact hbig ⟨hw, by omega⟩, h⟩
    · exact fun h => h.2

variable (mem) in
theorem ingests (N : Nat) : ∀ (fuel : Nat), N ≤ fuel → ∀ t : Obj, t.WF → t.nodes ≤ N →
    Ingests mem fuel t := by
  -- strong induction on the size of the object, because the rest of an object that was left early
  -- is met again as objects of its own
  induction N with
  | zero =>
    intro fuel _ t _ hn
    have := t.nodes_pos
    omega
  | succ N ih =>
    intro fuel hfuel t hwf hn
    obtain ⟨fuel, rfl⟩ : ∃ f, fuel = f + 1 := ⟨fuel - 1, by omega⟩
    have hobj : ∀ items : List Obj, Obj.nodesAll items ≤ N →
        ∀ u : Obj, u.WF → u.nodes ≤ Obj.nodesAll items → Ingests mem fuel u :=
      fun items hle u hu hn => ih fuel (by omega) u hu (hn.trans hle)
    cases t with
    | leaf l =>
      refine ⟨l.encode, [], ?_, copies_leaf fuel hwf, ?_, ?_⟩
      · simp [Obj.encode, Obj.encodeAll]
      · simp
      · simp [Obj.MapsBelow]
    | array f items =>
      obtain ⟨hf, hfits, hall⟩ := hwf
      simp only [Obj.nodes] at hn
      refine Ingests.items rfl rfl hall le_rfl (hobj items (by omega))
        (fun cs hcs => copies_array hf hfits hcs) fun R hleft => ?_
      rw [hleft.nil_iff, Obj.MapsBelow, Obj.mapsBelowAll_iff]
    | map f items =>
      obtain ⟨hf, heven, hfits, hall⟩ := hwf
      simp only [Obj.nodes] at hn
      have hk : mapCount (items.length / 2) f ≤ items.length := by
        cases f <;> simp only [mapCount] <;> omega
      exact Ingests.items rfl rfl hall hk (hobj items (by omega))
        (fun cs hcs => copies_map hf hfits hcs) fun R hleft => left_map_iff heven hfits hleft

end Nodeoze.Bstream
