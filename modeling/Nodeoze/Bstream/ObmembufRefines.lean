import Nodeoze.Bstream.ObmembufSpec

/-!
# The memory buffer as a sparse byte writer

A client writes, seeks, asks for positions and takes buffers in any order, and drops the buffers it
took when it likes.  The abstract machine is a `Splice.Writer`: bytes and a position, where a write
beyond the end first fills the gap with zeros.  The two agree on every observation as long as no
write finds the buffer shared and the position in front of the high watermark: making the buffer
unique then loses the bytes from the position on.
-/

namespace Nodeoze.Bstream

open RefHeap Splice Buffer Obstreambuf

/-- What a client does with an `obmembuf` and the buffers it got from it. -/
inductive Op
  | put (byte : UInt8)
  | putn (src : List UInt8)
  | filln (byte : UInt8) (n : Nat)
  | seek (where_ : SeekAnchor) (offset : Int)
  | tell (where_ : SeekAnchor)
  | flush
  | getBuffer (forceCopy : Bool)
  | clear
  | drop (slot : Nat)
  deriving DecidableEq, Repr

/-- What the client sees of it. -/
inductive Obs
  | done
  | position (pos : Nat)
  | invalidArgument
  | bytes (bs : List UInt8)
  deriving DecidableEq, Repr

/-- The bytes of a write. -/
def Op.written : Op → Option (List UInt8)
  | .put byte => some [byte]
  | .putn src => some src
  | .filln byte n => some (List.replicate n byte)
  | _ => none

/-- The position that a seek asks for, from the current position and the end. -/
def seekTarget (pos end_ : Nat) : SeekAnchor → Int → Int
  | .current, offset => pos + offset
  | .end_, offset => end_ + offset
  | .begin, offset => offset

/-- The abstract machine. -/
def sparseStep (w : Writer UInt8) : Op → Obs × Writer UInt8
  | .put byte => (.done, w.write 0 [byte])
  | .putn src => (.done, w.write 0 src)
  | .filln byte n => (.done, w.write 0 (List.replicate n byte))
  | .seek where_ offset =>
    let result := seekTarget w.pos w.bytes.length where_ offset
    if result < 0 then (.invalidArgument, w)
    else (.position result.toNat, { w with pos := result.toNat })
  | .tell .current => (.position w.pos, w)
  | .tell .end_ => (.position w.bytes.length, w)
  | .tell .begin => (.position 0, w)
  | .flush => (.done, w)
  | .getBuffer _ => (.bytes w.bytes, w)
  | .clear => (.done, ⟨[], 0⟩)
  | .drop _ => (.done, w)

def sparseRun (w : Writer UInt8) : List Op → List Obs
  | [] => []
  | op :: ops => (sparseStep w op).1 :: sparseRun (sparseStep w op).2 ops

namespace Obmembuf

/-- One call on the `obmembuf`.  The client has no handle on `m_buf` itself to drop. -/
def step (s : Obmembuf) : Op → Except Failure (Obs × Obmembuf)
  | .put byte => do
    let s ← Obstreambuf.put s byte
    pure (.done, s)
  | .putn src => do
    let s ← Obstreambuf.putn s src
    pure (.done, s)
  | .filln byte n => do
    let s ← Obstreambuf.filln s byte n
    pure (.done, s)
  | .seek where_ offset => do
    let (pos, s) ← seek s where_ offset
    match pos with
    | some pos => pure (.position pos, s)
    | none => pure (.invalidArgument, s)
  | .tell where_ => pure (.position (Obstreambuf.tell s where_).1, (Obstreambuf.tell s where_).2)
  | .flush => do
    let s ← Obstreambuf.flush s
    pure (.done, s)
  | .getBuffer forceCopy => do
    let (slot, s) ← getBuffer s forceCopy
    let bytes ← defined (s.dev.heap.content slot)
    pure (.bytes bytes, s)
  | .clear => do
    let s ← clear s
    pure (.done, s)
  | .drop slot =>
    if slot = s.dev.buf then pure (.done, s)
    else pure (.done, setHeap s (unshare s.dev.heap slot))

def run (s : Obmembuf) : List Op → Except Failure (List Obs × Obmembuf)
  | [] => pure ([], s)
  | op :: ops => do
    let (o, s) ← step s op
    let (os, s) ← run s ops
    pure (o :: os, s)

/-- A write that finds the buffer shared and the position in front of the high watermark. -/
def Loses (s : Obmembuf) (op : Op) : Prop :=
  op.written ≠ none ∧ s.writable = false ∧ isWritable s.dev.heap s.dev.buf = some false ∧
    s.pnext < s.highWatermark

instance (s : Obmembuf) (op : Op) : Decidable (Loses s op) := inferInstanceAs (Decidable (_ ∧ _))

/-- No step of the run loses bytes. -/
def keepsBytes : Obmembuf → List Op → Bool
  | _, [] => true
  | s, op :: ops =>
    !decide (Loses s op) &&
      match step s op with
      | .ok (_, s) => keepsBytes s ops
      | .error _ => true

/-- The window shows the abstract bytes. -/
structure Shows (s : Obmembuf) (w : Writer UInt8) (h : Handle) (B : Block UInt8 Policy)
    (c : List UInt8) : Prop where
  inv : Inv s h B c
  start : AtStart h B
  free : s.writable = true → Writable B
  synced : s.writable = false → s.highWatermark = extent s
  bytes : w.bytes = c.take (extent s)
  pos : w.pos = s.pnext

section

variable {s : Obmembuf} {w : Writer UInt8} {h : Handle} {B : Block UInt8 Policy} {c : List UInt8}

theorem Shows.length (r : Shows s w h B c) : w.bytes.length = extent s := by
  rw [r.bytes, List.length_take]
  have := r.inv.extent_le
  omega

/-- A write that loses nothing is the abstract write. -/
theorem Shows.wrote (r : Shows s w h B c) {op : Op} {src : List UInt8} (hop : op.written = some src)
    (hkeep : ¬ Loses s op) {s' : Obmembuf} {h' : Handle} {B' : Block UInt8 Policy}
    {c' : List UInt8} (hw : Wrote s h B c src s' h' B' c') : Shows s' (w.write 0 src) h' B' c' := by
  have hcopied : Copied s B := by
    by_cases hflag : s.writable = true
    · exact Or.inl hflag
    · have hflag : s.writable = false := by simpa using hflag
      by_cases hB : Writable B
      · exact Or.inr (Or.inl hB)
      · right
        right
        rw [← r.synced hflag]
        by_contra hlt
        refine hkeep ⟨by rw [hop]; exact Option.some_ne_none _, hflag, ?_, by omega⟩
        rw [r.inv.owned.isWritable, decide_eq_false hB]
  refine ⟨hw.inv, hw.step.start r.start, fun _ => hw.free, fun hf => ?_, ?_, ?_⟩
  · rw [hw.flag] at hf
    cases hf
  · rw [hw.bytes r.start hcopied, ← r.bytes, ← r.pos]
    rfl
  · rw [hw.next, ← r.pos]
    rfl

theorem Shows.flushed (r : Shows s w h B c) : Shows (flushed s) w h B c :=
  ⟨r.inv.flushed, r.start, r.free, fun _ => rfl, r.bytes, r.pos⟩

theorem target_eq (r : Shows s w h B c) (where_ : SeekAnchor) (offset : Int) :
    (flushed s).target where_ offset = seekTarget w.pos w.bytes.length where_ offset := by
  cases where_ with
  | current => simp only [Obstreambuf.target, seekTarget, r.inv.flushed.ppos, r.pos]; rfl
  | end_ => simp only [Obstreambuf.target, seekTarget, flushed_highWatermark, r.length]
  | begin => rfl

/-- One step: the observations agree and the states stay related. -/
theorem Shows.step (r : Shows s w h B c) {op : Op} (hkeep : ¬ Loses s op) :
    ∃ s' h' B' c', step s op = .ok ((sparseStep w op).1, s') ∧
      Shows s' (sparseStep w op).2 h' B' c' := by
  cases op with
  | put byte =>
    obtain ⟨s', h', B', c', hcall, hw⟩ := put_spec r.inv r.free byte
    exact ⟨s', h', B', c', by simp only [Obmembuf.step, hcall]; rfl, r.wrote rfl hkeep hw⟩
  | putn src =>
    obtain ⟨s', h', B', c', hcall, hw⟩ := putn_spec r.inv r.free src
    exact ⟨s', h', B', c', by simp only [Obmembuf.step, hcall]; rfl, r.wrote rfl hkeep hw⟩
  | filln byte n =>
    obtain ⟨s', h', B', c', hcall, hw⟩ := putn_spec r.inv r.free (List.replicate n byte)
    refine ⟨s', h', B', c', ?_, r.wrote rfl hkeep hw⟩
    simp only [Obmembuf.step, Obstreambuf.filln, hcall]
    rfl
  | seek where_ offset =>
    have htarget := target_eq r where_ offset
    by_cases hneg : seekTarget w.pos w.bytes.length where_ offset < 0
    · refine ⟨Obmembuf.flushed s, h, B, c, ?_, ?_⟩
      · simp only [Obmembuf.step, seek_negative r.inv (htarget ▸ hneg), sparseStep, hneg, if_true]
        rfl
      · simp only [sparseStep, hneg, if_true]
        exact r.flushed
    · obtain ⟨pos, hpos⟩ := Int.eq_ofNat_of_zero_le (Int.not_lt.mp hneg)
      obtain ⟨s', h', B', c', hcall, i', st, hn, hd, hwr, hm, htake, hfree⟩ :=
        seek_spec r.inv (htarget.trans hpos)
      have hext : extent s' = extent s := by rw [extent_of_clean (by simp [hd]), hm]
      refine ⟨s', h', B', c', ?_, ?_⟩
      · simp only [Obmembuf.step, hcall, sparseStep, hpos]
        rfl
      · simp only [sparseStep, hpos, Int.toNat_natCast]
        refine ⟨i', st.start r.start, fun hf => hfree (r.free (hwr ▸ hf)), fun _ => ?_, ?_, hn.symm⟩
        · rw [hm, hext]
        · rw [hext, htake]
          exact r.bytes
  | tell where_ =>
    obtain ⟨s', hcall, i', st, hn, he, hd, hwr, hm⟩ := tell_spec r.inv where_
    refine ⟨s', h, B, c, ?_, ?_⟩
    · simp only [Obmembuf.step, hcall]
      cases where_ <;> simp only [sparseStep, r.pos, r.length] <;> rfl
    · have hw : (sparseStep w (.tell where_)).2 = w := by cases where_ <;> rfl
      rw [hw]
      refine ⟨i', r.start, fun hf => r.free (hwr ▸ hf), fun hf => ?_, by rw [he]; exact r.bytes,
        by rw [hn]; exact r.pos⟩
      have hsync := r.synced (hwr ▸ hf)
      have hle : s'.highWatermark ≤ extent s' := by
        unfold extent
        split_ifs <;> omega
      omega
  | flush =>
    refine ⟨Obmembuf.flushed s, h, B, c, ?_, r.flushed⟩
    simp only [Obmembuf.step, flush_eq r.inv]
    rfl
  | getBuffer forceCopy =>
    obtain ⟨s', B', hcall, i', -, -, hcontent, hs, -, hn, hm, he, hfree⟩ :=
      getBuffer_spec r.inv forceCopy
    refine ⟨s', h, B', c, ?_, i', hs r.start, fun hf => ?_, fun _ => by rw [hm, he],
      by rw [he]; exact r.bytes, by rw [hn]; exact r.pos⟩
    · simp only [Obmembuf.step, hcall, ok_bind, hcontent, defined_some, sparseStep, r.bytes]
      rfl
    · obtain ⟨hwr, hB⟩ := hfree hf
      exact hB (r.free hwr)
  | clear =>
    obtain ⟨s', hcall, i', st, hn, he, hd, hwr⟩ := clear_spec r.inv
    refine ⟨s', h, B, c, by simp only [Obmembuf.step, hcall]; rfl, i', r.start,
      fun hf => r.free (hwr ▸ hf), fun _ => ?_, by rw [he]; rfl, hn.symm⟩
    rw [extent_of_clean (by simp [hd])]
  | drop slot =>
    by_cases hslot : slot = s.dev.buf
    · exact ⟨s, h, B, c, by simp only [Obmembuf.step, hslot, if_true]; rfl, r⟩
    · obtain ⟨B', o', -, hm, hg, ht, hone⟩ := r.inv.owned.drop hslot
      refine ⟨setHeap s (unshare s.dev.heap slot), h, B', c, ?_,
        ⟨o', r.inv.base, r.inv.pend, r.inv.offset, r.inv.next, r.inv.mark, r.inv.touched⟩, ?_,
        fun hf => ?_, r.synced, r.bytes, r.pos⟩
      · simp only [Obmembuf.step, hslot, if_false]
        rfl
      · have := r.start
        unfold AtStart Block.data at this ⊢
        rwa [hm, hg]
      · rcases r.free hf with hu | hp
        · exact Or.inl (hone hu)
        · exact Or.inr (ht.trans hp)

/-- A whole run, by induction on the calls. -/
theorem Shows.run (ops : List Op) : ∀ {s : Obmembuf} {w : Writer UInt8} {h : Handle}
    {B : Block UInt8 Policy} {c : List UInt8}, Shows s w h B c → keepsBytes s ops = true →
      ∃ s', run s ops = .ok (sparseRun w ops, s') := by
  induction ops with
  | nil => exact fun {s} _ _ _ _ _ _ => ⟨s, rfl⟩
  | cons op ops ih =>
    intro s w h B c r hkeep
    simp only [keepsBytes, Bool.and_eq_true, Bool.not_eq_true', decide_eq_false_iff_not] at hkeep
    obtain ⟨s₁, h₁, B₁, c₁, hstep, r₁⟩ := r.step hkeep.1
    rw [hstep] at hkeep
    obtain ⟨s', hrun⟩ := ih r₁ hkeep.2
    refine ⟨s', ?_⟩
    simp only [Obmembuf.run, hstep, ok_bind, hrun]
    rfl

theorem shows_ofCapacity (junk : Nat → Nat → UInt8) {H : Heap} (hH : H.WF guarded) (size : Nat)
    (pol : Policy) :
    ∃ s h B c, ofCapacity junk H size pol = .ok s ∧ Shows s ⟨[], 0⟩ h B c := by
  obtain ⟨h, B, o, -, hs, hr, -, -⟩ := owned_construct hH (malloc junk H.next size) pol
  have hptrs := setPtrs_eq (s := Obstreambuf.init ⟨junk, allocate junk H size pol, H.slots, none⟩) o 0
  exact ⟨_, h, B, _, hptrs, ⟨o, rfl, rfl, rfl, Nat.zero_le _, Nat.zero_le _, le_rfl⟩, hs,
    fun _ => Or.inl hr, fun _ => rfl, rfl, rfl⟩

end

/-- From any capacity and under any policy, every run in which no write loses bytes shows the client
what the sparse writer shows. -/
theorem run_eq_sparse (junk : Nat → Nat → UInt8) (H : Heap) (hH : H.WF guarded) (size : Nat)
    (pol : Policy) (ops : List Op) :
    ∃ s, ofCapacity junk H size pol = .ok s ∧
      (keepsBytes s ops = true → ∃ s', run s ops = .ok (sparseRun ⟨[], 0⟩ ops, s')) := by
  obtain ⟨s, h, B, c, hinit, r⟩ := shows_ofCapacity junk hH size pol
  exact ⟨s, hinit, fun hkeep => Shows.run ops r hkeep⟩

/-- What a client sees of a run from a given capacity. -/
def observed (size : Nat) (pol : Policy) (ops : List Op) : Option (List Obs) :=
  ((ofCapacity (fun _ _ => 0) RefHeap.empty size pol >>= fun s => run s ops).toOption).map Prod.fst

/-- Four bytes are written and the buffer is taken; then the second byte is overwritten. -/
def overwriteTaken : List Op :=
  [.putn [1, 2, 3, 4], .getBuffer false, .seek .begin 1, .put 9, .getBuffer false]

/-- While the first buffer is alive, the bytes behind the one that is overwritten are lost. -/
theorem overwriteTaken_loses :
    observed 16 .copyOnWrite overwriteTaken =
        some [.done, .bytes [1, 2, 3, 4], .position 1, .done, .bytes [1, 9, 0, 0]] ∧
      observed 16 .copyOnWrite overwriteTaken ≠ some (sparseRun ⟨[], 0⟩ overwriteTaken) := by
  decide +kernel

/-- The same with the first buffer dropped before the byte is overwritten. -/
def overwriteDropped : List Op :=
  [.putn [1, 2, 3, 4], .getBuffer false, .drop 1, .seek .begin 1, .put 9, .getBuffer false]

/-- The start state keeps its bytes in the run. -/
def startKeepsBytes (size : Nat) (pol : Policy) (ops : List Op) : Bool :=
  match ofCapacity (fun _ _ => 0) RefHeap.empty size pol with
  | .ok s => keepsBytes s ops
  | .error _ => false

theorem overwriteDropped_keeps :
    ∃ s, ofCapacity (fun _ _ => 0) RefHeap.empty 16 .copyOnWrite = .ok s ∧
      keepsBytes s overwriteDropped = true ∧
      ∃ s', run s overwriteDropped = .ok (sparseRun ⟨[], 0⟩ overwriteDropped, s') := by
  obtain ⟨s, hs, hrun⟩ :=
    run_eq_sparse (fun _ _ => 0) RefHeap.empty WF.empty 16 .copyOnWrite overwriteDropped
  have hkeep : startKeepsBytes 16 .copyOnWrite overwriteDropped = true := by decide +kernel
  unfold startKeepsBytes at hkeep
  rw [hs] at hkeep
  exact ⟨s, hs, hkeep, hrun hkeep⟩

end Obmembuf

end Nodeoze.Bstream
