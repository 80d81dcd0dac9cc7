import Nodeoze.Bstream.AppendMode
import Nodeoze.Bstream.Attempts

/-!
# Writes that fail and writes that are short

`really_flush` reports the error of a `write`, and only asserts that it took all it was given.  The
file below answers every `write` as it likes.  `Covers` is the state in which nothing is lost: once the
window is written, the file holds what was accepted.  A `write` that fails keeps that, a short one
does not.
-/

namespace Nodeoze.Bstream

open Splice Posix Partway

/-- What a call of `write` does: it takes all bytes, it leaves out some at the end, or it fails. -/
inductive Response
  | all
  | short (missing : Nat)
  | fails (e : Errno)
  deriving DecidableEq, Repr

/-- A file that answers the calls of `write` by number, and `close` with an error or not; the vector is
that of `Filebuf`. -/
structure FlakyFile where
  bytes : List UInt8
  offset : Nat
  append : Bool
  isOpen : Bool
  responses : Nat → Response
  calls : Nat
  closing : Option Errno
  data : List UInt8
  size : Nat

abbrev FlakyBuf := Obstreambuf FlakyFile

namespace FlakyFile

/-- Where a `write` starts. -/
def start (f : FlakyFile) : Nat := if f.append then f.bytes.length else f.offset

/-- The file with the bytes that a `write` takes. -/
def take (f : FlakyFile) (bs : List UInt8) : FlakyFile :=
  if bs.isEmpty then f
  else { f with bytes := (Writer.write 0 ⟨f.bytes, f.start⟩ bs).bytes, offset := f.start + bs.length }

/-- One more call of `write` has been answered. -/
def called (f : FlakyFile) : FlakyFile := { f with calls := f.calls + 1 }

def store (off : Nat) (src : List UInt8) : Attempt FlakyFile Unit := do
  let s ← get
  if s.dev.size < off + src.length then throw .undefined
  else set { s with dev := { s.dev with data := splice (pad 0 s.dev.data off) off src } }

def lseek (off : Nat) : Attempt FlakyFile Unit := do
  let s ← get
  if s.dev.isOpen then set { s with dev := { s.dev with offset := off } }
  else throw (.errno .badf)

/-- `::write( m_fd, pbase(), n )`; how many bytes it takes is asserted only. -/
def write (n : Nat) : Attempt FlakyFile Unit := do
  let s ← get
  let src := (pad 0 s.dev.data n).take n
  if s.dev.isOpen then
    match s.dev.responses s.dev.calls with
    | .all => set { s with dev := s.dev.called.take src }
    | .short missing => set { s with dev := s.dev.called.take (src.take (n - (missing + 1))) }
    | .fails e => do
      set { s with dev := s.dev.called }
      throw (.errno e)
  else throw (.errno .badf)

def seekBase : Attempt FlakyFile Unit := do
  let s ← get
  if s.lastTouched ≠ s.pbaseOffset then lseek s.pbaseOffset else pure ()

def reallyFlush : Attempt FlakyFile Unit := do
  let s ← get
  let pos := s.ppos
  seekBase
  write s.pnext
  modify fun s => { s with pbaseOffset := pos, pnext := 0 }

def reallyTouch : Attempt FlakyFile Unit := do
  let s ← get
  let pos := s.ppos
  lseek pos
  modify fun s => { s with lastTouched := pos }

instance : Device FlakyFile where
  store := store
  reallyFlush := reallyFlush
  reallyMakeWritable := pure ()
  reallyTouch := reallyTouch
  reallyOverflow _ := pure ()

/-- `really_seek` -/
def seek (where_ : SeekAnchor) (offset : Int) : Attempt FlakyFile Unit := do
  Attempt.flush
  let s ← get
  let result := s.target where_ offset
  if result < 0 then throw .invalidArgument
  else set { s with pbaseOffset := result.toNat, pnext := 0 }

/-- The descriptor is gone also if `::close` reports an error. -/
def close : Attempt FlakyFile Unit := do
  Attempt.flush
  let s ← get
  if s.dev.isOpen then do
    set { s with dev := { s.dev with isOpen := false } }
    match s.dev.closing with
    | none => pure ()
    | some e => throw (.errno e)
  else throw (.errno .badf)

/-- The buffer after `open` of a file that held `bytes`. -/
def opened (bytes : List UInt8) (mode : OpenMode) (size : Nat) (responses : Nat → Response)
    (closing : Option Errno) : FlakyBuf :=
  let bytes := if mode = .truncate then [] else bytes
  let pos := if mode = .atEnd ∨ mode.toFlags.append then bytes.length else 0
  { pbaseOffset := pos, highWatermark := bytes.length, lastTouched := pos, pnext := 0, pend := size
    dirtyStart := 0, dirty := false, writable := true
    dev := ⟨bytes, pos, mode.toFlags.append, true, responses, 0, closing, [], size⟩ }

end FlakyFile

/-! ### Runs -/

inductive StreamOp
  | put (byte : UInt8)
  | putn (src : List UInt8)
  | filln (byte : UInt8) (n : Nat)
  | seek (where_ : SeekAnchor) (offset : Int)
  | tell (where_ : SeekAnchor)
  | flush
  | close
  deriving DecidableEq, Repr

namespace StreamOp

def attempt : StreamOp → Attempt FlakyFile Unit
  | .put byte => Attempt.put byte
  | .putn src => Attempt.putn src
  | .filln byte n => Attempt.filln byte n
  | .seek where_ offset => FlakyFile.seek where_ offset
  | .tell where_ => modify fun s => (s.tell where_).2
  | .flush => Attempt.flush
  | .close => FlakyFile.close

def payload : StreamOp → List UInt8
  | .put byte => [byte]
  | .putn src => src
  | .filln byte n => List.replicate n byte
  | _ => []

/-- The call writes out what is in the window. -/
def Settles : StreamOp → Prop
  | .flush | .close | .seek _ _ => True
  | _ => False

end StreamOp

namespace FlakyFile

/-- The state after a call that returns or reports an error; the other ways to end are not ones to go
on from. -/
def next (s : FlakyBuf) (op : StreamOp) : Option FlakyBuf :=
  match op.attempt.run s with
  | .ok _ s' => some s'
  | .error (.errno _) s' => some s'
  | .error .invalidArgument s' => some s'
  | .error _ _ => none

/-- `c` with what the call has accepted, written at the position it started from. -/
def received (s s' : FlakyBuf) (c : List UInt8) (op : StreamOp) : List UInt8 :=
  ((⟨c, s.ppos⟩ : Writer UInt8).writes 0 (op.payload.take (s'.ppos - s.ppos))).bytes

/-- The calls one after the other, whether they fail or not, and the bytes that they accept. -/
def run : FlakyBuf → List UInt8 → List StreamOp → Option (FlakyBuf × List UInt8)
  | s, c, [] => some (s, c)
  | s, c, op :: ops => do
    let s' ← next s op
    run s' (received s s' c op) ops

/-- In append mode, bytes are put only where the window starts at the end of the file. -/
def Aimed (s : FlakyBuf) (op : StreamOp) : Prop :=
  s.dev.append = true → op.payload ≠ [] → s.pbaseOffset = s.dev.bytes.length

instance (s : FlakyBuf) (op : StreamOp) : Decidable (Aimed s op) := inferInstanceAs (Decidable (_ → _))

def AimedRun (s : FlakyBuf) : List StreamOp → Prop
  | [] => True
  | op :: ops =>
    Aimed s op ∧
    match next s op with
    | some s' => AimedRun s' ops
    | none => True

instance AimedRun.decide (s : FlakyBuf) : (ops : List StreamOp) → Decidable (AimedRun s ops)
  | [] => isTrue trivial
  | op :: ops => by
    have hrest : Decidable (match next s op with
        | some s' => AimedRun s' ops
        | none => True) :=
      match next s op with
      | some s' => AimedRun.decide s' ops
      | none => isTrue trivial
    exact instDecidableAnd

/-- No call of `write` so far was short. -/
def Whole (s : FlakyBuf) : Prop := ∀ i < s.dev.calls, ∀ missing, s.dev.responses i ≠ .short missing

def window (s : FlakyBuf) : List UInt8 := (pad 0 s.dev.data s.pnext).take s.pnext

/-- Once the window is written, the file holds `c`. -/
structure Covers (s : FlakyBuf) (c : List UInt8) : Prop where
  content : c = ((⟨s.dev.bytes, s.pbaseOffset⟩ : Writer UInt8).writes 0 (window s)).bytes
  next : s.dirty = false → s.pnext = 0
  touched : s.dirty = true → s.lastTouched = s.pbaseOffset
  offset : s.dev.append = false → s.dev.isOpen = true → s.dev.offset = s.lastTouched
  behind : s.dev.append = true → 0 < s.pnext → s.pbaseOffset = s.dev.bytes.length

/-- A write that starts now finds the descriptor where the buffer believes it to be. -/
def Ready (s : FlakyBuf) : Prop := s.dirty = false → s.lastTouched = s.ppos

/-- The call accepts nothing and loses nothing. -/
structure Keeps (s s' : FlakyBuf) : Prop where
  ppos : s'.ppos = s.ppos
  append : s'.dev.append = s.dev.append
  whole : Whole s' → Whole s
  covers : ∀ {c}, Covers s c → Whole s' → Covers s' c

section

variable {s s' s'' s₀ : FlakyBuf} {c c₀ bs : List UInt8}

theorem Whole.of_calls (hcalls : s.dev.calls ≤ s'.dev.calls)
    (hresponses : s'.dev.responses = s.dev.responses) (h : Whole s') : Whole s := by
  intro i hi
  rw [← hresponses]
  exact h i (Nat.lt_of_lt_of_le hi hcalls)

theorem Covers.of_clean (h : Covers s c) (hnext : s.pnext = 0) : s.dev.bytes = c := by
  have hnil : window s = [] := by
    rw [window, hnext, List.take_zero]
  rw [h.content, hnil, Writer.writes_nil]

namespace Keeps

theorem refl (s : FlakyBuf) : Keeps s s := ⟨rfl, rfl, id, fun h _ => h⟩

theorem trans (h : Keeps s s') (h' : Keeps s' s'') : Keeps s s'' where
  ppos := h'.ppos.trans h.ppos
  append := h'.append.trans h.append
  whole := fun hw => h.whole (h'.whole hw)
  covers := by
    intro c hc hw
    exact h'.covers (h.covers hc (h'.whole hw)) hw

end Keeps

theorem leaves_lseek (s : FlakyBuf) (off : Nat) :
    Leaves (· = s) ((lseek off).run s) (· = { s with dev := { s.dev with offset := off } }) := by
  show Leaves _ ((if s.dev.isOpen = true then set { s with dev := { s.dev with offset := off } }
    else throw (.errno .badf) : Attempt FlakyFile Unit).run s) _
  split_ifs
  · exact .ok rfl
  · exact .error rfl

/-- `touch` moves the descriptor to the position. -/
theorem keeps_reallyTouch (hclean : s.dirty = false) :
    Leaves (Keeps s) (reallyTouch.run s) fun s' => Keeps s s' ∧ Ready s' := by
  refine ((leaves_lseek s s.ppos).imp (fun t ht => ht ▸ .refl s) fun _ => id).bind ?_
  rintro _ t rfl
  refine .ok ⟨⟨rfl, rfl, id, ?_⟩, fun _ => rfl⟩
  intro c hc _
  exact {
    content := hc.content
    next := hc.next
    touched := fun hdirty => absurd (hclean.symm.trans hdirty) Bool.false_ne_true
    offset := fun _ _ => rfl
    behind := hc.behind }

/-! ### Flushing -/

theorem length_window (s : FlakyBuf) : (window s).length = s.pnext := by
  rw [window, List.length_take, length_pad]
  omega

theorem bytes_take (f : FlakyFile) (src : List UInt8) :
    (f.take src).bytes = ((⟨f.bytes, f.start⟩ : Writer UInt8).writes 0 src).bytes := by
  unfold take Writer.writes
  split_ifs <;> rfl

theorem offset_take {f : FlakyFile} (happ : f.append = false) (src : List UInt8) :
    (f.take src).offset = f.offset + src.length := by
  unfold take
  split_ifs with hsrc
  · rw [List.isEmpty_iff.mp hsrc, List.length_nil, Nat.add_zero]
  · show f.start + src.length = _
    rw [start, happ]
    rfl

@[simp] theorem append_take (f : FlakyFile) (src : List UInt8) : (f.take src).append = f.append := by
  unfold take
  split_ifs <;> rfl

@[simp] theorem responses_take (f : FlakyFile) (src : List UInt8) :
    (f.take src).responses = f.responses := by
  unfold take
  split_ifs <;> rfl

@[simp] theorem calls_take (f : FlakyFile) (src : List UInt8) : (f.take src).calls = f.calls := by
  unfold take
  split_ifs <;> rfl

/-- The state after a flush for which `write` has left the file as `f`. -/
def written (s : FlakyBuf) (f : FlakyFile) (mark : Nat) : FlakyBuf :=
  { s with pbaseOffset := s.ppos, highWatermark := mark, lastTouched := s.ppos, pnext := 0
           dirty := false, dev := f }

/-- If all of the window is taken, the file holds what it stood for. -/
theorem Covers.written (h : Covers s c) (hdirty : s.dirty = true) (hopen : s.dev.isOpen = true)
    (mark : Nat) : Covers (written s (s.dev.called.take (window s)) mark) c := by
  have htouched := h.touched hdirty
  have hbytes : (s.dev.called.take (window s)).bytes = c := by
    rw [bytes_take, h.content]
    show ((⟨s.dev.bytes, s.dev.start⟩ : Writer UInt8).writes 0 _).bytes = _
    rw [start]
    by_cases happ : s.dev.append = true
    · rw [if_pos happ]
      by_cases hnext : 0 < s.pnext
      · rw [h.behind happ hnext]
      · have hnil : window s = [] := by
          rw [← List.length_eq_zero_iff, length_window]
          omega
        rw [hnil, Writer.writes_nil, Writer.writes_nil]
    · rw [if_neg happ, h.offset (by simpa using happ) hopen, htouched]
  exact {
    content := hbytes.symm
    next := fun _ => rfl
    touched := fun hd => absurd hd Bool.false_ne_true
    offset := by
      intro happ _
      have happ' : s.dev.called.append = false := (append_take _ _).symm.trans happ
      show (s.dev.called.take (window s)).offset = s.ppos
      rw [offset_take happ', length_window]
      show s.dev.offset + s.pnext = s.pbaseOffset + s.pnext
      rw [h.offset happ' hopen, htouched]
    behind := fun _ hpos => absurd hpos (Nat.lt_irrefl 0) }

theorem not_whole_written {missing : Nat} (hshort : s.dev.responses s.dev.calls = .short missing)
    (src : List UInt8) (mark : Nat) : ¬ Whole (written s (s.dev.called.take src) mark) := by
  intro hw
  refine hw s.dev.calls ?_ missing ?_
  · show s.dev.calls < (s.dev.called.take src).calls
    rw [calls_take]
    exact Nat.lt_succ_self _
  · show (s.dev.called.take src).responses s.dev.calls = _
    rw [responses_take]
    exact hshort

theorem keeps_written (src : List UInt8) (mark : Nat)
    (hcovers : ∀ c, Covers s c → Whole (written s (s.dev.called.take src) mark) →
      Covers (written s (s.dev.called.take src) mark) c) :
    Keeps s (written s (s.dev.called.take src) mark) where
  ppos := rfl
  append := append_take _ _
  whole := by
    apply Whole.of_calls
    · show s.dev.calls ≤ (s.dev.called.take src).calls
      rw [calls_take]
      exact Nat.le_succ _
    · show (s.dev.called.take src).responses = _
      rw [responses_take]
      rfl
  covers := fun hc hw => hcovers _ hc hw

theorem keeps_called (s : FlakyBuf) : Keeps s { s with dev := s.dev.called } where
  ppos := rfl
  append := rfl
  whole := Whole.of_calls (Nat.le_succ _) rfl
  covers := fun hc _ => ⟨hc.content, hc.next, hc.touched, hc.offset, hc.behind⟩

/-- A `write` that takes all or fails loses nothing. -/
theorem keeps_write (hdirty : s.dirty = true) :
    Leaves (Keeps s) ((write s.pnext).run s)
      fun t => t.dirty = true ∧ t = { s with dev := t.dev } ∧ ∀ mark, Keeps s (written s t.dev mark) := by
  unfold write
  show Leaves _ ((if s.dev.isOpen = true then
    match s.dev.responses s.dev.calls with
    | .all => set { s with dev := s.dev.called.take (window s) }
    | .short missing => set { s with dev := s.dev.called.take ((window s).take (s.pnext - (missing + 1))) }
    | .fails e => do
      set { s with dev := s.dev.called }
      throw (.errno e)
    else throw (.errno .badf) : Attempt FlakyFile Unit).run s) _
  split_ifs with hopen
  · rcases hresponse : s.dev.responses s.dev.calls with _ | missing | e
    · exact .ok ⟨hdirty, rfl, fun mark => keeps_written _ mark fun c hc _ => hc.written hdirty hopen mark⟩
    · exact .ok ⟨hdirty, rfl, fun mark => keeps_written _ mark fun c _ hw =>
        absurd hw (not_whole_written hresponse _ mark)⟩
    · exact .error (keeps_called s)
  · exact .error (.refl s)

/-- A dirty buffer never needs to move the descriptor before it writes. -/
theorem keeps_seekBase (hdirty : s.dirty = true) :
    Leaves (Keeps s) (seekBase.run s) fun t => Keeps s t ∧ t.dirty = true ∧ t.pnext = s.pnext := by
  show Leaves _ ((if s.lastTouched ≠ s.pbaseOffset then lseek s.pbaseOffset else pure () :
    Attempt FlakyFile Unit).run s) _
  split_ifs with hsame
  · refine (leaves_lseek s _).imp (fun t ht => ht ▸ .refl s) ?_
    rintro t rfl
    refine ⟨⟨rfl, rfl, id, ?_⟩, hdirty, rfl⟩
    intro c hc _
    exact absurd (hc.touched hdirty) hsame
  · exact .ok ⟨.refl s, hdirty, rfl⟩

theorem keeps_flush (s : FlakyBuf) :
    Leaves (Keeps s) (Attempt.flush.run s) fun s' =>
      Keeps s s' ∧ s'.dirty = false ∧ (Ready s → Ready s') := by
  show Leaves _ ((if s.dirty = true then _ else pure () : Attempt FlakyFile Unit).run s) _
  split_ifs with hdirty
  · -- `really_flush`, and what `flush` sets after it
    have hreally : Leaves (Keeps s) (reallyFlush.run s) fun t => t.dirty = true ∧
        ∀ mark, Keeps s { t with highWatermark := mark, lastTouched := t.ppos, dirty := false } := by
      show Leaves _ ((seekBase >>= fun _ => write s.pnext >>= fun _ =>
        modify fun t => { t with pbaseOffset := s.ppos, pnext := 0 } : Attempt FlakyFile Unit).run s) _
      refine (keeps_seekBase hdirty).bind ?_
      rintro _ s₁ ⟨hs₁, hdirty₁, hnext₁⟩
      rw [← hnext₁, ← hs₁.ppos]
      refine ((keeps_write hdirty₁).imp (fun _ => hs₁.trans) fun _ => id).bind ?_
      rintro _ s₂ ⟨hdirty₂, hs₂, hkeeps⟩
      rw [hs₂]
      exact .ok ⟨hdirty₁, fun mark => hs₁.trans (hkeeps mark)⟩
    refine hreally.bind ?_
    rintro _ t ⟨-, ht⟩
    obtain ⟨mark, hmark⟩ := t.setHighWatermark_exists
    refine .ok ⟨?_, rfl, fun _ _ => rfl⟩
    show Keeps s { t.setHighWatermark with lastTouched := t.setHighWatermark.ppos, dirty := false }
    rw [hmark]
    exact ht mark
  · exact .ok ⟨.refl s, by simpa using hdirty, id⟩

/-! ### Writing -/

theorem keeps_touch (hclean : s.dirty = false) :
    Leaves (Keeps s) (Attempt.touch.run s) fun s' => Keeps s s' ∧ Ready s' := by
  show Leaves _ ((if s.lastTouched ≠ s.ppos then reallyTouch else pure () :
    Attempt FlakyFile Unit).run s) _
  split_ifs with hsame
  · exact keeps_reallyTouch hclean
  · exact .ok ⟨.refl s, fun _ => not_not.mp hsame⟩

theorem keeps_prepare (s : FlakyBuf) :
    Leaves (Keeps s) (Attempt.prepare.run s) fun s' => Keeps s s' ∧ Ready s' := by
  have hwritable : Leaves (Keeps s) (Attempt.makeWritable.run s) (Keeps s) := by
    show Leaves _ ((if s.writable = true then pure () else modify fun s => { s with writable := true } :
      Attempt FlakyFile Unit).run s) _
    split_ifs
    · exact .ok (.refl s)
    · exact .ok ⟨rfl, rfl, id, fun hc _ => ⟨hc.content, hc.next, hc.touched, hc.offset, hc.behind⟩⟩
  refine hwritable.bind ?_
  intro _ s₁ hs₁
  show Leaves _ ((if s₁.dirty = true then pure () else Attempt.touch : Attempt FlakyFile Unit).run s₁) _
  split_ifs with hdirty
  · refine .ok ⟨hs₁, ?_⟩
    intro hclean
    exact absurd (hclean.symm.trans hdirty) Bool.false_ne_true
  · refine (keeps_touch (by simpa using hdirty)).imp (fun _ => hs₁.trans) ?_
    rintro s₂ ⟨hs₂, hready⟩
    exact ⟨hs₁.trans hs₂, hready⟩

/-- From `s₀`, which stands for `c₀`, the bytes `bs` have been accepted. -/
structure Sent (s₀ : FlakyBuf) (c₀ : List UInt8) (s : FlakyBuf) (bs : List UInt8) : Prop where
  ppos : s.ppos = s₀.ppos + bs.length
  append : s.dev.append = s₀.dev.append
  whole : Whole s → Whole s₀
  covers : Whole s → Covers s ((⟨c₀, s₀.ppos⟩ : Writer UInt8).writes 0 bs).bytes

theorem Sent.keeps (h : Sent s₀ c₀ s bs) (hs : Keeps s s') : Sent s₀ c₀ s' bs where
  ppos := hs.ppos.trans h.ppos
  append := hs.append.trans h.append
  whole := fun hw => h.whole (hs.whole hw)
  covers := fun hw => hs.covers (h.covers (hs.whole hw)) hw

/-- What a placed block leaves. -/
def placed (s : FlakyBuf) (src : List UInt8) (start : Nat) : FlakyBuf :=
  { s with dev := { s.dev with data := splice (pad 0 s.dev.data s.pnext) s.pnext src }
           pnext := s.pnext + src.length, dirty := true, dirtyStart := start }

theorem keeps_dirtyStart (s : FlakyBuf) (start : Nat) : Keeps s { s with dirtyStart := start } :=
  ⟨rfl, rfl, id, fun hc _ => ⟨hc.content, hc.next, hc.touched, hc.offset, hc.behind⟩⟩

theorem leaves_place (s : FlakyBuf) (src : List UInt8) :
    Leaves (Keeps s) ((Attempt.place src).run s) fun s' => ∃ start, s' = placed s src start := by
  let rest : Attempt FlakyFile Unit := do
    let s ← get
    store s.pnext src
    modify fun s => { s with pnext := s.pnext + src.length, dirty := true }
  have hrest : ∀ start, Leaves (Keeps s) (rest.run { s with dirtyStart := start })
      fun s' => ∃ start, s' = placed s src start := by
    intro start
    show Leaves _ (((if s.dev.size < s.pnext + src.length then throw .undefined else set _) >>= fun _ =>
      modify _ : Attempt FlakyFile Unit).run { s with dirtyStart := start }) _
    split_ifs
    · exact .error (keeps_dirtyStart s start)
    · exact .ok ⟨start, rfl⟩
  show Leaves _ (rest.run (if s.dirty = true then s else { s with dirtyStart := s.pnext })) _
  split_ifs
  · exact hrest s.dirtyStart
  · exact hrest s.pnext

theorem window_placed (s : FlakyBuf) (src : List UInt8) (start : Nat) :
    window (placed s src start) = window s ++ src :=
  Obfilebuf.window_splice s.dev.data src s.pnext

/-- Behind a window that stands at the end of the file, the position is the end of what was accepted. -/
theorem Covers.length (h : Covers s c) (hbase : s.pbaseOffset = s.dev.bytes.length) :
    c.length = s.ppos := by
  rw [h.content]
  unfold Writer.writes
  split_ifs with hnil
  · have hnext : s.pnext = 0 := by
      rw [← length_window, List.isEmpty_iff.mp hnil, List.length_nil]
    rw [Obstreambuf.ppos, hnext, hbase, Nat.add_zero]
  · rw [Writer.length_write, length_window, Obstreambuf.ppos, hbase]
    apply max_eq_right
    exact Nat.le_add_right _ _

/-- Bytes that are placed belong at the position. -/
theorem Covers.placed (h : Covers s c) (hready : Ready s) {src : List UInt8}
    (haim : s.dev.append = true → src ≠ [] → s.ppos = c.length) (start : Nat) :
    Covers (placed s src start) ((⟨c, s.ppos⟩ : Writer UInt8).writes 0 src).bytes where
  content := by
    rw [window_placed]
    show _ = ((⟨s.dev.bytes, s.pbaseOffset⟩ : Writer UInt8).writes 0 _).bytes
    rw [← Writer.writes_append, h.content]
    have hpos : ((⟨s.dev.bytes, s.pbaseOffset⟩ : Writer UInt8).writes 0 (window s)).pos = s.ppos := by
      rw [Writer.writes_pos, length_window]
      rfl
    rw [← hpos]
  next := fun hclean => absurd hclean.symm Bool.false_ne_true
  touched := by
    intro _
    show s.lastTouched = s.pbaseOffset
    by_cases hdirty : s.dirty = true
    · exact h.touched hdirty
    · have hclean : s.dirty = false := by simpa using hdirty
      rw [hready hclean, Obstreambuf.ppos, h.next hclean, Nat.add_zero]
  offset := h.offset
  behind := by
    intro happ hpos
    show s.pbaseOffset = s.dev.bytes.length
    by_cases hnext : 0 < s.pnext
    · exact h.behind happ hnext
    · have hzero : s.pnext = 0 := by omega
      have hsrc : src ≠ [] := by
        rintro rfl
        exact hnext hpos
      have hnil : window s = [] := by
        rw [← List.length_eq_zero_iff, length_window, hzero]
      have hat := haim happ hsrc
      rw [Obstreambuf.ppos, hzero, Nat.add_zero, h.content, hnil, Writer.writes_nil] at hat
      exact hat

theorem Sent.placed (h : Sent s₀ c₀ s bs) (hready : Ready s) {src : List UInt8}
    (haim : s₀.dev.append = true → src ≠ [] → Whole s₀ → s₀.ppos = c₀.length) (start : Nat) :
    Sent s₀ c₀ (placed s src start) (bs ++ src) where
  ppos := by
    show s.pbaseOffset + (s.pnext + src.length) = _
    rw [List.length_append, ← Nat.add_assoc, ← Nat.add_assoc, ← h.ppos]
    rfl
  append := h.append
  whole := h.whole
  covers := by
    intro hw
    have hcovers := h.covers hw
    have haim' : s.dev.append = true → src ≠ [] →
        s.ppos = ((⟨c₀, s₀.ppos⟩ : Writer UInt8).writes 0 bs).bytes.length := by
      intro happ hsrc
      have hat := haim (h.append.symm.trans happ) hsrc (h.whole hw)
      rw [h.ppos]
      unfold Writer.writes
      split_ifs with hnil
      · rw [List.isEmpty_iff.mp hnil, List.length_nil, Nat.add_zero]
        exact hat
      · rw [Writer.length_write]
        show s₀.ppos + bs.length = max c₀.length (s₀.ppos + bs.length)
        omega
    have hplaced := hcovers.placed hready haim' start
    rw [← Writer.writes_append]
    have hpos : ((⟨c₀, s₀.ppos⟩ : Writer UInt8).writes 0 bs).pos = s.ppos := by
      rw [Writer.writes_pos, h.ppos]
    rw [← hpos] at hplaced
    exact hplaced

/-- The writing functions accept bytes one after the other and lose none of them. -/
theorem accepts_sent {N : Prop} (haim : s₀.dev.append = true → N → Whole s₀ → s₀.ppos = c₀.length) :
    Attempt.Accepts N (fun s bs => Sent s₀ c₀ s bs ∧ Ready s) (Sent s₀ c₀) where
  kept := fun h => h.1
  overflow := by
    rintro s bs n ⟨h, hready⟩
    refine ((keeps_flush s).imp (fun _ => h.keeps) fun _ => id).bind ?_
    rintro _ s' ⟨hs', -, hready'⟩
    exact .ok ⟨h.keeps hs', hready' hready⟩
  place := by
    rintro s bs src ⟨h, hready⟩ hN
    refine (leaves_place s src).imp (fun _ => h.keeps) ?_
    rintro s' ⟨start, rfl⟩
    refine ⟨h.placed hready (fun happ hsrc => haim happ (hN hsrc)) start, ?_⟩
    intro hclean
    exact absurd hclean.symm Bool.false_ne_true

/-- Nothing is lost as long as no `write` is short. -/
def Safe (s : FlakyBuf) (c : List UInt8) : Prop := Whole s → Covers s c

theorem Safe.sent (h : Safe s c) : Sent s c s [] where
  ppos := rfl
  append := rfl
  whole := id
  covers := h

theorem Safe.keeps (h : Safe s c) (hs : Keeps s s') : Safe s' c :=
  fun hw => hs.covers (h (hs.whole hw)) hw

theorem Safe.prepare (h : Safe s c) :
    Leaves (Sent s c · []) (Attempt.prepare.run s) fun s' => Sent s c s' [] ∧ Ready s' :=
  (keeps_prepare s).imp (fun _ => h.sent.keeps) fun _ hs' => ⟨h.sent.keeps hs'.1, hs'.2⟩

theorem Safe.aim (h : Safe s c) {op : StreamOp} (hop : Aimed s op) :
    s.dev.append = true → op.payload ≠ [] → Whole s → s.ppos = c.length :=
  fun happ hne hw => ((h hw).length (hop happ hne)).symm

/-- What a write has accepted is known from how far the position has moved. -/
theorem Safe.of_partly (op : StreamOp) (h : Attempt.Partly (Sent s c) [] op.payload s') :
    Safe s' (received s s' c op) := by
  obtain ⟨n, hn, hs'⟩ := h
  rw [List.nil_append] at hs'
  have hmoved : s'.ppos - s.ppos = n := by
    rw [hs'.ppos, List.length_take]
    omega
  intro hw
  rw [received, hmoved]
  exact hs'.covers hw

theorem Safe.flush (h : Safe s c) :
    Leaves (Safe · c) (Attempt.flush.run s) fun s' => Safe s' c ∧ s'.dirty = false :=
  (keeps_flush s).imp (fun _ => h.keeps) fun _ hs' => ⟨h.keeps hs'.1, hs'.2.1⟩

theorem Covers.moved (h : Covers s c) (hclean : s.dirty = false) (pos : Nat) :
    Covers { s with pbaseOffset := pos, pnext := 0 } c where
  content := (h.of_clean (h.next hclean)).symm
  next := fun _ => rfl
  touched := fun hdirty => absurd (hclean.symm.trans hdirty) Bool.false_ne_true
  offset := h.offset
  behind := fun _ hpos => absurd hpos (Nat.lt_irrefl 0)

theorem Safe.seek (h : Safe s c) (where_ : SeekAnchor) (offset : Int) :
    Leaves (Safe · c) ((seek where_ offset).run s) fun s' => Safe s' c ∧ s'.dirty = false := by
  refine h.flush.bind ?_
  rintro _ s₁ ⟨hs₁, hclean⟩
  show Leaves _ ((if s₁.target where_ offset < 0 then throw .invalidArgument else set
    { s₁ with pbaseOffset := (s₁.target where_ offset).toNat, pnext := 0 } :
      Attempt FlakyFile Unit).run s₁) _
  split_ifs
  · exact .error hs₁
  · exact .ok ⟨fun hw => (hs₁ hw).moved hclean _, hclean⟩

theorem Covers.closed (h : Covers s c) : Covers { s with dev := { s.dev with isOpen := false } } c where
  content := h.content
  next := h.next
  touched := h.touched
  offset := fun _ hopen => absurd hopen Bool.false_ne_true
  behind := h.behind

theorem Safe.close (h : Safe s c) :
    Leaves (Safe · c) (close.run s) fun s' => Safe s' c ∧ s'.dirty = false := by
  refine h.flush.bind ?_
  rintro _ s₁ ⟨hs₁, hclean⟩
  show Leaves _ ((if s₁.dev.isOpen = true then (do
      set { s₁ with dev := { s₁.dev with isOpen := false } }
      match s₁.dev.closing with
      | none => pure ()
      | some e => throw (.errno e))
    else throw (.errno .badf) : Attempt FlakyFile Unit).run s₁) _
  have hclosed : Safe { s₁ with dev := { s₁.dev with isOpen := false } } c := fun hw => (hs₁ hw).closed
  split_ifs
  · rcases s₁.dev.closing with _ | e
    · exact .ok ⟨hclosed, hclean⟩
    · exact .error hclosed
  · exact .error hs₁

theorem keeps_tell (s : FlakyBuf) (where_ : SeekAnchor) : Keeps s (s.tell where_).2 := by
  have hmark : ∃ n, (s.tell where_).2 = { s with highWatermark := n } := by
    rcases s.tell_snd where_ with heq | ⟨-, heq⟩
    · exact ⟨s.highWatermark, heq⟩
    · exact ⟨_, heq⟩
  obtain ⟨n, hn⟩ := hmark
  rw [hn]
  exact ⟨rfl, rfl, id, fun hc _ => ⟨hc.content, hc.next, hc.touched, hc.offset, hc.behind⟩⟩

/-- A call that writes the window out. -/
theorem Safe.settles (h : Safe s c) {op : StreamOp} (hop : op.Settles) :
    Leaves (Safe · c) (op.attempt.run s) fun s' => Safe s' c ∧ s'.dirty = false := by
  cases op with
  | put byte => exact absurd hop id
  | putn src => exact absurd hop id
  | filln byte n => exact absurd hop id
  | tell where_ => exact absurd hop id
  | seek where_ offset => exact h.seek where_ offset
  | flush => exact h.flush
  | close => exact h.close

theorem Safe.settled (h : Safe s c) {op : StreamOp} (hop : op.Settles) :
    Safe (left (op.attempt.run s)) c :=
  ((h.settles hop).imp (fun _ => id) fun _ hs' => hs'.1).left

theorem received_of_nil (op : StreamOp) (hop : op.payload = []) : received s s' c op = c := by
  rw [received, hop, List.take_nil, Writer.writes_nil]

/-- Whether a call fails or not, it loses nothing of what it has accepted. -/
theorem Safe.step (h : Safe s c) {op : StreamOp} (hop : Aimed s op) :
    Safe (left (op.attempt.run s)) (received s (left (op.attempt.run s)) c op) := by
  have hsent := accepts_sent (h.aim hop)
  cases op with
  | put byte => exact .of_partly (.put byte) (hsent.put_left h.prepare byte (List.cons_ne_nil _ _))
  | putn src => exact .of_partly (.putn src) (hsent.putn_left h.prepare id)
  | filln byte n => exact .of_partly (.filln byte n) (hsent.putn_left h.prepare id)
  | seek where_ offset =>
    rw [received_of_nil (.seek where_ offset) rfl]
    exact h.settled trivial
  | tell where_ =>
    rw [received_of_nil (.tell where_) rfl]
    exact h.keeps (keeps_tell s where_)
  | flush =>
    rw [received_of_nil .flush rfl]
    exact h.settled trivial
  | close =>
    rw [received_of_nil .close rfl]
    exact h.settled trivial

theorem left_of_next {op : StreamOp} (hnext : next s op = some s') : left (op.attempt.run s) = s' := by
  unfold next at hnext
  rcases hrun : op.attempt.run s with ⟨a, t⟩ | ⟨e, t⟩ <;> rw [hrun] at hnext
  · exact Option.some.inj hnext
  · cases e with
    | invalidArgument => exact Option.some.inj hnext
    | errno e => exact Option.some.inj hnext
    | undefined => cases hnext
    | loops => cases hnext
    | noBufferSpace => cases hnext

theorem Safe.run (h : Safe s c) {ops : List StreamOp} (hops : AimedRun s ops) {c' : List UInt8}
    (hrun : run s c ops = some (s', c')) : Safe s' c' := by
  induction ops generalizing s c with
  | nil =>
    obtain ⟨rfl, rfl⟩ := Prod.mk.inj (Option.some.inj hrun)
    exact h
  | cons op ops ih =>
    obtain ⟨hop, hrest⟩ := hops
    obtain ⟨s₁, hnext, hrun⟩ := Option.bind_eq_some_iff.mp hrun
    have hstep := h.step hop
    rw [left_of_next hnext] at hstep
    rw [hnext] at hrest
    exact ih hstep hrest hrun

end

theorem safe_opened (bytes : List UInt8) (mode : OpenMode) (size : Nat) (responses : Nat → Response)
    (closing : Option Errno) : Safe (opened bytes mode size responses closing)
      (opened bytes mode size responses closing).dev.bytes := by
  intro _
  exact {
    content := rfl
    next := fun _ => rfl
    touched := fun hdirty => absurd hdirty Bool.false_ne_true
    offset := fun _ _ => rfl
    behind := fun _ hpos => absurd hpos (Nat.lt_irrefl 0) }

/-- If no `write` is short, then after a flush, a seek or a close that reports no error the file holds
what was accepted, at its positions; calls that have failed before do not matter. -/
theorem nothing_dropped {bytes : List UInt8} {mode : OpenMode} {size : Nat}
    {responses : Nat → Response} {closing : Option Errno} {ops : List StreamOp} {op : StreamOp}
    {s s' : FlakyBuf} {c : List UInt8}
    (hrun : run (opened bytes mode size responses closing)
      (opened bytes mode size responses closing).dev.bytes ops = some (s, c))
    (haimed : AimedRun (opened bytes mode size responses closing) ops)
    (hop : op.Settles) (hok : op.attempt.run s = .ok () s') (hwhole : Whole s') : s'.dev.bytes = c := by
  have hsafe := (safe_opened bytes mode size responses closing).run haimed hrun
  have hsettles := hsafe.settles hop
  rw [hok] at hsettles
  obtain ⟨hs', hclean⟩ := hsettles.left_of_returns rfl
  have hcovers := hs' hwhole
  exact hcovers.of_clean (hcovers.next hclean)

/-- The first `write` fails, the others take everything. -/
def failsOnce : Nat → Response
  | 0 => .fails .fbig
  | _ => .all

/-- The first flush fails, and the seek writes what it has left. -/
def retriedRun : List StreamOp := [.putn [1, 2, 3], .flush, .seek .begin 9, .putn [4, 5], .flush]

theorem nothing_dropped_retriedRun : ∃ s s', run (opened [] .truncate 3 failsOnce none) [] retriedRun =
      some (s, [1, 2, 3, 0, 0, 0, 0, 0, 0, 4, 5]) ∧
    StreamOp.close.attempt.run s = .ok () s' ∧ s'.dev.bytes = [1, 2, 3, 0, 0, 0, 0, 0, 0, 4, 5] := by
  have hall : ∃ s s', run (opened [] .truncate 3 failsOnce none) [] retriedRun =
        some (s, [1, 2, 3, 0, 0, 0, 0, 0, 0, 4, 5]) ∧
      StreamOp.close.attempt.run s = .ok () s' ∧
      AimedRun (opened [] .truncate 3 failsOnce none) retriedRun ∧
      s'.dev.calls = 3 ∧ s'.dev.responses = failsOnce := by
    refine ⟨_, _, rfl, rfl, ?_, rfl, rfl⟩
    decide +kernel
  obtain ⟨s, s', hrun, hclose, haimed, hcalls, hresponses⟩ := hall
  have hsettles : StreamOp.close.Settles := trivial
  refine ⟨s, s', hrun, hclose, nothing_dropped hrun haimed hsettles hclose ?_⟩
  intro i hi missing
  rw [hresponses]
  obtain _ | i := i
  · exact nofun
  · exact nofun

/-- A `write` that takes two of three bytes: the flush reports no error and the third byte is gone. -/
theorem short_write_drops : ∃ s s',
    run (opened [] .truncate 4 (fun _ => .short 0) none) [] [.putn [1, 2, 3]] = some (s, [1, 2, 3]) ∧
      AimedRun (opened [] .truncate 4 (fun _ => .short 0) none) [.putn [1, 2, 3]] ∧
      StreamOp.flush.attempt.run s = .ok () s' ∧ s'.dev.bytes = [1, 2] ∧ s'.dirty = false := by
  refine ⟨_, _, rfl, ?_, rfl, rfl, rfl⟩
  decide

end FlakyFile

end Nodeoze.Bstream
