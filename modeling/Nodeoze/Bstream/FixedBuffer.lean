import Nodeoze.Bstream.Attempts

/-!
# A buffer over memory of fixed size

The base class `obstreambuf` itself, over a range of memory that it does not own: nothing is behind the
window, an overflow is `no_buffer_space`, and `really_touch` fills a gap by calling `filln` and `flush`
on the same object, with the position moved back to the high watermark.  Its arguments to `filln` are
in the wrong order, so nothing is filled and the position stays there (`reallyTouch_gap`).

As long as no write starts behind the high watermark, the buffer is a `Writer` that refuses what does
not fit.
-/

namespace Nodeoze.Bstream

open Splice Partway

/-- The memory, of which all is in the window. -/
structure Fixed where
  mem : List UInt8

abbrev FixedBuf := Obstreambuf Fixed

namespace Fixed

/-- `obstreambuf( data, size )` -/
def create (mem : List UInt8) : FixedBuf := { Obstreambuf.init ⟨mem⟩ with pend := mem.length }

def store (off : Nat) (src : List UInt8) : Attempt Fixed Unit := do
  let s ← get
  if s.dev.mem.length < off + src.length then throw .undefined
  else set { s with dev := { s.dev with mem := splice s.dev.mem off src } }

/-- The virtual functions of the base class, with a given `really_touch`. -/
@[reducible] def device (touch : Attempt Fixed Unit) : Device Fixed where
  store := store
  reallyFlush := pure ()
  reallyMakeWritable := pure ()
  reallyTouch := touch
  reallyOverflow _ := throw .noBufferSpace

/-- `really_touch`, which comes back to itself through `filln` and `touch`; `depth` is how often it may.
The call is `filln( pos - hwm, 0, err )`: the byte is `pos - hwm`, and there are none of it. -/
def reallyTouch : Nat → Attempt Fixed Unit
  | 0 => throw .loops
  | depth + 1 => do
    let s ← get
    let hwm := s.highWatermark
    let pos := s.ppos
    if hwm < pos then do
      set { s with pnext := hwm - s.pbaseOffset }
      @Attempt.filln Fixed (device (reallyTouch depth)) (UInt8.ofNat (pos - hwm)) 0
      @Attempt.flush Fixed (device (reallyTouch depth))
    else set { s with lastTouched := pos }

instance : Device Fixed := device (reallyTouch 2)

/-- `really_seek`; a position outside of the memory is `std::errc::invalid_argument`. -/
def seek (where_ : SeekAnchor) (offset : Int) : Attempt Fixed Unit := do
  Attempt.flush
  let s ← get
  let result := s.target where_ offset
  if result < 0 ∨ (s.pend : Int) < result then throw .invalidArgument
  else set { s with pnext := result.toNat - s.pbaseOffset }

end Fixed

inductive FixedOp
  | put (byte : UInt8)
  | putn (src : List UInt8)
  | filln (byte : UInt8) (n : Nat)
  | seek (where_ : SeekAnchor) (offset : Int)
  | tell (where_ : SeekAnchor)
  | flush
  deriving DecidableEq, Repr

namespace FixedOp

def attempt : FixedOp → Attempt Fixed Unit
  | .put byte => Attempt.put byte
  | .putn src => Attempt.putn src
  | .filln byte n => Attempt.filln byte n
  | .seek where_ offset => Fixed.seek where_ offset
  | .tell where_ => modify fun s => (s.tell where_).2
  | .flush => Attempt.flush

/-- The bytes of a write. -/
def written : FixedOp → Option (List UInt8)
  | .put byte => some [byte]
  | .putn src => some src
  | .filln byte n => some (List.replicate n byte)
  | _ => none

end FixedOp

namespace Fixed

/-! ### The abstract machine -/

/-- The position that a seek asks for. -/
def target (w : Writer UInt8) : SeekAnchor → Int → Int
  | .current, offset => w.pos + offset
  | .end_, offset => w.bytes.length + offset
  | .begin, offset => offset

/-- A writer that refuses what goes beyond `size` bytes. -/
def boundedStep (size : Nat) (w : Writer UInt8) (op : FixedOp) : Option Failure × Writer UInt8 :=
  match op with
  | .seek where_ offset =>
    let result := target w where_ offset
    if result < 0 ∨ (size : Int) < result then (some .invalidArgument, w)
    else (none, ⟨w.bytes, result.toNat⟩)
  | op =>
    match op.written with
    | some src =>
      if w.pos + src.length ≤ size then (none, w.writes 0 src) else (some .noBufferSpace, w)
    | none => (none, w)

/-- What every call of a run reports, and the bytes and the position after it. -/
def boundedRun (size : Nat) (w : Writer UInt8) : List FixedOp → List (Option Failure × Writer UInt8)
  | [] => []
  | op :: ops => boundedStep size w op :: boundedRun size (boundedStep size w op).2 ops

/-- The bytes up to the high watermark, and the position. -/
def view (s : FixedBuf) : Writer UInt8 := ⟨s.dev.mem.take (s.tell .end_).1, (s.tell .current).1⟩

/-- The same of the buffer, whether the calls fail or not. -/
def run (s : FixedBuf) : List FixedOp → List (Option Failure × Writer UInt8)
  | [] => []
  | op :: ops =>
    let r := op.attempt.run s
    (error? r, view (left r)) :: run (left r) ops

/-- No write starts behind the high watermark. -/
def Inside (s : FixedBuf) (op : FixedOp) : Prop :=
  op.written ≠ none → (s.tell .current).1 ≤ (s.tell .end_).1

instance (s : FixedBuf) (op : FixedOp) : Decidable (Inside s op) := inferInstanceAs (Decidable (_ → _))

def InsideRun (s : FixedBuf) : List FixedOp → Prop
  | [] => True
  | op :: ops => Inside s op ∧ InsideRun (left (op.attempt.run s)) ops

instance InsideRun.decide (s : FixedBuf) : (ops : List FixedOp) → Decidable (InsideRun s ops)
  | [] => isTrue trivial
  | op :: ops => by
    have hrest : Decidable (InsideRun (left (op.attempt.run s)) ops) := InsideRun.decide _ ops
    exact instDecidableAnd

/-- How far the bytes written so far reach. -/
def extent (s : FixedBuf) : Nat := if s.dirty then max s.highWatermark s.pnext else s.highWatermark

/-- The memory shows the bytes of the writer, which is inside. -/
structure Fits (size : Nat) (s : FixedBuf) (w : Writer UInt8) : Prop where
  bytes : w.bytes = s.dev.mem.take (extent s)
  pos : w.pos = s.pnext
  base : s.pbaseOffset = 0
  window : s.pend = size
  memory : s.dev.mem.length = size
  next : s.pnext ≤ size
  mark : s.highWatermark ≤ size
  writable : s.writable = true

section

variable {size : Nat} {s s' : FixedBuf} {w : Writer UInt8}

namespace Fits

theorem ppos (h : Fits size s w) : s.ppos = w.pos := by
  rw [Obstreambuf.ppos, h.base, Nat.zero_add, h.pos]

theorem extent_le (h : Fits size s w) : extent s ≤ size := by
  have hnext := h.next
  have hmark := h.mark
  unfold extent
  split_ifs <;> omega

theorem length (h : Fits size s w) : w.bytes.length = extent s := by
  rw [h.bytes, List.length_take, h.memory]
  exact min_eq_left h.extent_le

theorem tell_end (h : Fits size s w) : (s.tell .end_).1 = extent s := by
  have hppos : s.ppos = s.pnext := h.ppos.trans h.pos
  rw [s.tell_end_fst, extent, hppos]

theorem view_eq (h : Fits size s w) : view s = w := by
  rw [view, h.tell_end, ← h.bytes]
  show (⟨w.bytes, s.ppos⟩ : Writer UInt8) = w
  rw [h.ppos]

/-- A call that leaves the memory, the position and the extent alone. -/
theorem same (h : Fits size s w) (hdev : s'.dev = s.dev) (hextent : extent s' = extent s)
    (hpnext : s'.pnext = s.pnext) (hbase : s'.pbaseOffset = 0) (hpend : s'.pend = s.pend)
    (hmark : s'.highWatermark ≤ size) (hwritable : s'.writable = true) : Fits size s' w where
  bytes := by rw [hextent, hdev, h.bytes]
  pos := h.pos.trans hpnext.symm
  base := hbase
  window := hpend.trans h.window
  memory := by rw [hdev, h.memory]
  next := hpnext.trans_le h.next
  mark := hmark
  writable := hwritable

/-- A flush only sets the flags and the high watermark. -/
theorem flush (h : Fits size s w) :
    ∃ s', Attempt.flush.run s = .ok () s' ∧ Fits size s' w ∧ s'.dirty = false := by
  show ∃ s', (if s.dirty = true then modify fun s => { s.setHighWatermark with
    lastTouched := s.setHighWatermark.ppos, dirty := false } else pure () :
      Attempt Fixed Unit).run s = .ok () s' ∧ _
  have hppos : s.ppos = s.pnext := h.ppos.trans h.pos
  by_cases hdirty : s.dirty = true
  · rw [if_pos hdirty]
    refine ⟨_, rfl, ?_, rfl⟩
    show Fits size { s.setHighWatermark with
      lastTouched := s.setHighWatermark.ppos, dirty := false } w
    rw [Obstreambuf.setHighWatermark_of_dirty hdirty, hppos]
    have hle := h.extent_le
    rw [extent, if_pos hdirty] at hle
    refine h.same rfl ?_ rfl h.base rfl hle h.writable
    rw [extent, extent, if_pos hdirty]
    rfl
  · rw [if_neg hdirty]
    exact ⟨s, rfl, h, by simpa using hdirty⟩

/-- In front of the high watermark, `touch` only marks the position as touched. -/
theorem prepare (h : Fits size s w) (hin : w.pos ≤ w.bytes.length) :
    ∃ s', Attempt.prepare.run s = .ok () s' ∧ Fits size s' w := by
  have hppos : s.ppos = s.pnext := h.ppos.trans h.pos
  rw [h.pos, h.length] at hin
  have hrun : Attempt.prepare.run s =
      (if s.dirty then pure () else Attempt.touch : Attempt Fixed Unit).run s := by
    show ((if s.writable = true then pure () else _) >>= fun _ => _ : Attempt Fixed Unit).run s = _
    rw [if_pos h.writable]
    rfl
  rw [hrun]
  by_cases hdirty : s.dirty = true
  · rw [if_pos hdirty]
    exact ⟨s, rfl, h⟩
  · rw [if_neg hdirty]
    rw [extent, if_neg hdirty] at hin
    show ∃ s', (if s.lastTouched ≠ s.ppos then reallyTouch 2 else pure () :
      Attempt Fixed Unit).run s = .ok () s' ∧ _
    split_ifs
    · have hgap : ¬ s.highWatermark < s.ppos := by omega
      refine ⟨{ s with lastTouched := s.ppos }, ?_, ?_⟩
      · show (if s.highWatermark < s.ppos then _ else set { s with lastTouched := s.ppos } :
          Attempt Fixed Unit).run s = _
        rw [if_neg hgap]
        rfl
      · exact h.same rfl rfl rfl h.base rfl h.mark h.writable
    · exact ⟨s, rfl, h⟩

theorem overflow (h : Fits size s w) (n : Nat) :
    ∃ s', (Attempt.overflow n).run s = .error .noBufferSpace s' ∧ Fits size s' w := by
  obtain ⟨s', hflush, h', -⟩ := h.flush
  refine ⟨s', ?_, h'⟩
  show (Attempt.flush >>= fun _ => throw .noBufferSpace : Attempt Fixed Unit).run s = _
  rw [run_bind_ok hflush]
  rfl

/-- What a placed block leaves. -/
def placed (s : FixedBuf) (src : List UInt8) (start : Nat) : FixedBuf :=
  { s with dev := { s.dev with mem := splice s.dev.mem s.pnext src }
           pnext := s.pnext + src.length, dirty := true, dirtyStart := start }

theorem run_place (h : Fits size s w) {src : List UInt8} (hfit : w.pos + src.length ≤ size) :
    ∃ start, (Attempt.place src).run s = .ok () (placed s src start) := by
  have hroom : ¬ s.dev.mem.length < s.pnext + src.length := by
    rw [h.memory, ← h.pos]
    omega
  let rest : Attempt Fixed Unit := do
    let s ← get
    store s.pnext src
    modify fun s => { s with pnext := s.pnext + src.length, dirty := true }
  have hrest : ∀ start, rest.run { s with dirtyStart := start } = .ok () (placed s src start) := by
    intro start
    show ((if s.dev.mem.length < s.pnext + src.length then throw .undefined else set _) >>= fun _ =>
      modify _ : Attempt Fixed Unit).run { s with dirtyStart := start } = _
    rw [if_neg hroom]
    rfl
  show ∃ start, rest.run (if s.dirty = true then s else { s with dirtyStart := s.pnext }) = _
  split_ifs
  · exact ⟨s.dirtyStart, hrest s.dirtyStart⟩
  · exact ⟨s.pnext, hrest s.pnext⟩

/-- Bytes for which there is room go to the position. -/
theorem place (h : Fits size s w) (hin : w.pos ≤ w.bytes.length) {src : List UInt8}
    (hfit : w.pos + src.length ≤ size) (start : Nat) :
    Fits size (placed s src start) (w.writes 0 src) := by
  rw [h.length, h.pos] at hin
  have hpos := h.pos
  have hmem := h.memory
  have hextent : extent s = max s.highWatermark s.pnext := by
    unfold extent at hin ⊢
    split_ifs at hin ⊢ <;> omega
  have hlen : (splice s.dev.mem s.pnext src).length = size := by
    rw [length_splice _ _ _ (by omega), hmem]
  refine ⟨?_, ?_, h.base, h.window, hlen, ?_, h.mark, h.writable⟩
  · have hbytes : (w.writes 0 src).bytes = splice w.bytes w.pos src := by
      by_cases hnil : src = []
      · rw [hnil, Writer.writes_nil, splice_nil]
      · rw [Writer.writes_of_ne_nil 0 w hnil, Writer.write]
        show splice (pad 0 w.bytes w.pos) w.pos src = _
        rw [pad_of_le 0 (by rw [h.length, hpos]; exact hin)]
    rw [hbytes, h.bytes, hpos, hextent, splice_take_max _ _ _ _ (by omega)]
    rfl
  · rw [Writer.writes_pos, hpos]
    rfl
  · show s.pnext + src.length ≤ size
    omega

theorem putn_fits (h : Fits size s w) (hin : w.pos ≤ w.bytes.length) {src : List UInt8}
    (hfit : w.pos + src.length ≤ size) :
    ∃ s', (Attempt.putn src).run s = .ok () s' ∧ Fits size s' (w.writes 0 src) := by
  obtain ⟨s₁, hprep, h₁⟩ := h.prepare hin
  obtain ⟨start, hplace⟩ := h₁.run_place hfit
  have hroom : src.length ≤ s₁.pend - s₁.pnext := by
    rw [h₁.window, ← h₁.pos]
    omega
  refine ⟨placed s₁ src start, ?_, h₁.place hin hfit start⟩
  rw [Attempt.putn, run_bind_ok hprep]
  show (if src.length ≤ s₁.pend - s₁.pnext then Attempt.place src else _ :
    Attempt Fixed Unit).run s₁ = _
  rw [if_pos hroom]
  exact hplace

theorem putn_full (h : Fits size s w) (hin : w.pos ≤ w.bytes.length) {src : List UInt8}
    (hfull : size < w.pos + src.length) :
    ∃ s', (Attempt.putn src).run s = .error .noBufferSpace s' ∧ Fits size s' w := by
  obtain ⟨s₁, hprep, h₁⟩ := h.prepare hin
  obtain ⟨s₂, hover, h₂⟩ := h₁.overflow src.length
  have hroom : ¬ src.length ≤ s₁.pend - s₁.pnext := by
    have hnext := h₁.next
    have hpos := h₁.pos
    rw [h₁.window]
    omega
  refine ⟨s₂, ?_, h₂⟩
  rw [Attempt.putn, run_bind_ok hprep]
  show (if src.length ≤ s₁.pend - s₁.pnext then _ else Attempt.overflow src.length >>= _ :
    Attempt Fixed Unit).run s₁ = _
  rw [if_neg hroom, EStateM.run_bind, hover]

theorem put_fits (h : Fits size s w) (hin : w.pos ≤ w.bytes.length) (byte : UInt8)
    (hfit : w.pos < size) :
    ∃ s', (Attempt.put byte).run s = .ok () s' ∧ Fits size s' (w.writes 0 [byte]) := by
  obtain ⟨s₁, hprep, h₁⟩ := h.prepare hin
  have hfits : w.pos + [byte].length ≤ size := hfit
  obtain ⟨start, hplace⟩ := h₁.run_place hfits
  have hroom : ¬ s₁.pend ≤ s₁.pnext := by
    rw [h₁.window, ← h₁.pos]
    omega
  refine ⟨placed s₁ [byte] start, ?_, h₁.place hin hfits start⟩
  rw [Attempt.put, run_bind_ok hprep]
  show ((if s₁.pend ≤ s₁.pnext then Attempt.overflow 1 else pure ()) >>= fun _ => _ :
    Attempt Fixed Unit).run s₁ = _
  rw [if_neg hroom]
  exact hplace

theorem put_full (h : Fits size s w) (hin : w.pos ≤ w.bytes.length) (byte : UInt8)
    (hfull : size ≤ w.pos) :
    ∃ s', (Attempt.put byte).run s = .error .noBufferSpace s' ∧ Fits size s' w := by
  obtain ⟨s₁, hprep, h₁⟩ := h.prepare hin
  obtain ⟨s₂, hover, h₂⟩ := h₁.overflow 1
  have hroom : s₁.pend ≤ s₁.pnext := by
    rw [h₁.window, ← h₁.pos]
    exact hfull
  refine ⟨s₂, ?_, h₂⟩
  rw [Attempt.put, run_bind_ok hprep]
  show ((if s₁.pend ≤ s₁.pnext then Attempt.overflow 1 else pure ()) >>= fun _ => _ :
    Attempt Fixed Unit).run s₁ = _
  rw [if_pos hroom, EStateM.run_bind, hover]

theorem target_eq (h : Fits size s w) (hclean : s.dirty = false) (where_ : SeekAnchor) (offset : Int) :
    s.target where_ offset = target w where_ offset := by
  have hextent : extent s = s.highWatermark := by
    unfold extent
    rw [hclean]
    rfl
  cases where_ with
  | current =>
    show (s.ppos : Int) + offset = _
    rw [h.ppos]
    rfl
  | end_ =>
    show (s.highWatermark : Int) + offset = w.bytes.length + offset
    rw [h.length, hextent]
  | begin => rfl

/-- A seek flushes, and moves the position in the memory only. -/
theorem seek (h : Fits size s w) (where_ : SeekAnchor) (offset : Int) :
    error? ((seek where_ offset).run s) = (boundedStep size w (.seek where_ offset)).1 ∧
      Fits size (left ((seek where_ offset).run s)) (boundedStep size w (.seek where_ offset)).2 := by
  obtain ⟨s₁, hflush, h₁, hclean⟩ := h.flush
  have htarget := h₁.target_eq hclean where_ offset
  have hrun : (Fixed.seek where_ offset).run s =
      (if s₁.target where_ offset < 0 ∨ (s₁.pend : Int) < s₁.target where_ offset then
        throw .invalidArgument
      else set { s₁ with pnext := (s₁.target where_ offset).toNat - s₁.pbaseOffset } :
        Attempt Fixed Unit).run s₁ := by
    rw [Fixed.seek, run_bind_ok hflush]
    rfl
  rw [hrun, htarget, h₁.window, h₁.base]
  simp only [boundedStep]
  by_cases hout : target w where_ offset < 0 ∨ (size : Int) < target w where_ offset
  · rw [if_pos hout, if_pos hout]
    exact ⟨rfl, h₁⟩
  · rw [if_neg hout, if_neg hout]
    refine ⟨rfl, ?_⟩
    exact {
      bytes := by
        rw [h₁.bytes]
        show _ = s₁.dev.mem.take (if s₁.dirty then _ else s₁.highWatermark)
        rw [extent, hclean]
        rfl
      pos := rfl
      base := rfl
      window := rfl
      memory := h₁.memory
      next := by
        show (target w where_ offset).toNat - 0 ≤ size
        omega
      mark := h₁.mark
      writable := h₁.writable }

theorem tell (h : Fits size s w) (where_ : SeekAnchor) : Fits size (s.tell where_).2 w := by
  have hppos : s.ppos = s.pnext := h.ppos.trans h.pos
  rcases s.tell_snd where_ with heq | ⟨hdirty, heq⟩
  · rw [heq]
    exact h
  · have hle := h.extent_le
    rw [extent, if_pos hdirty] at hle
    rw [heq, hppos]
    refine h.same rfl ?_ rfl h.base rfl hle h.writable
    rw [extent, extent, if_pos hdirty, if_pos hdirty]
    show max (max s.highWatermark s.pnext) s.pnext = _
    rw [max_assoc, max_self]

/-- A write that starts inside the bytes is the bounded write, or nothing. -/
theorem putn (h : Fits size s w) (hin : w.pos ≤ w.bytes.length) (src : List UInt8) :
    error? ((Attempt.putn src).run s) = (boundedStep size w (.putn src)).1 ∧
      Fits size (left ((Attempt.putn src).run s)) (boundedStep size w (.putn src)).2 := by
  show _ = (if w.pos + src.length ≤ size then (none, w.writes 0 src) else _ :
    Option Failure × Writer UInt8).1 ∧ Fits size _ (if _ then _ else _ : Option Failure × _).2
  by_cases hfit : w.pos + src.length ≤ size
  · obtain ⟨s', hrun, h'⟩ := h.putn_fits hin hfit
    rw [if_pos hfit, hrun]
    exact ⟨rfl, h'⟩
  · obtain ⟨s', hrun, h'⟩ := h.putn_full hin (Nat.lt_of_not_le hfit)
    rw [if_neg hfit, hrun]
    exact ⟨rfl, h'⟩

theorem put (h : Fits size s w) (hin : w.pos ≤ w.bytes.length) (byte : UInt8) :
    error? ((Attempt.put byte).run s) = (boundedStep size w (.put byte)).1 ∧
      Fits size (left ((Attempt.put byte).run s)) (boundedStep size w (.put byte)).2 := by
  show _ = (if w.pos + [byte].length ≤ size then (none, w.writes 0 [byte]) else _ :
    Option Failure × Writer UInt8).1 ∧ Fits size _ (if _ then _ else _ : Option Failure × _).2
  by_cases hfit : w.pos + [byte].length ≤ size
  · obtain ⟨s', hrun, h'⟩ := h.put_fits hin byte hfit
    rw [if_pos hfit, hrun]
    exact ⟨rfl, h'⟩
  · obtain ⟨s', hrun, h'⟩ := h.put_full hin byte (Nat.le_of_lt_succ (Nat.lt_of_not_le hfit))
    rw [if_neg hfit, hrun]
    exact ⟨rfl, h'⟩

/-- A call does what the bounded writer does, and reports the same. -/
theorem step (h : Fits size s w) {op : FixedOp} (hop : Inside s op) :
    error? (op.attempt.run s) = (boundedStep size w op).1 ∧
      Fits size (left (op.attempt.run s)) (boundedStep size w op).2 := by
  have hin : op.written ≠ none → w.pos ≤ w.bytes.length := by
    intro hwritten
    have hle := hop hwritten
    rw [h.tell_end, ← h.length] at hle
    exact h.ppos.symm.trans_le hle
  cases op with
  | put byte => exact h.put (hin (Option.some_ne_none _)) byte
  | putn src => exact h.putn (hin (Option.some_ne_none _)) src
  | filln byte n => exact h.putn (hin (Option.some_ne_none _)) (List.replicate n byte)
  | seek where_ offset => exact h.seek where_ offset
  | tell where_ => exact ⟨rfl, h.tell where_⟩
  | flush =>
    obtain ⟨s', hflush, h', -⟩ := h.flush
    show error? (Attempt.flush.run s) = _ ∧ Fits size (left (Attempt.flush.run s)) _
    rw [hflush]
    exact ⟨rfl, h'⟩

theorem run (h : Fits size s w) {ops : List FixedOp} (hops : InsideRun s ops) :
    run s ops = boundedRun size w ops := by
  induction ops generalizing s w with
  | nil => rfl
  | cons op ops ih =>
    obtain ⟨hop, hrest⟩ := hops
    obtain ⟨herror, hleft⟩ := h.step hop
    rw [Fixed.run, boundedRun, ih hleft hrest]
    show (error? (op.attempt.run s), view (left (op.attempt.run s))) :: _ = _
    rw [herror, hleft.view_eq]

end Fits

/-- A write that starts behind the high watermark: the position goes back to it, and nothing is filled,
however often `really_touch` may call itself. -/
theorem reallyTouch_gap (hbase : s.pbaseOffset = 0) (hwritable : s.writable = true)
    (hclean : s.dirty = false) (hfit : s.highWatermark ≤ s.dev.mem.length)
    (hgap : s.highWatermark < s.pnext) (depth : Nat) :
    (reallyTouch (depth + 2)).run s = .ok () { s with
      pnext := s.highWatermark, lastTouched := s.highWatermark, dirtyStart := s.highWatermark } := by
  obtain ⟨base, mark, touched, next, pend, start, dirty, writable, ⟨mem⟩⟩ := s
  simp only at hbase hwritable hclean hfit hgap
  subst hbase hwritable hclean
  let d := device (reallyTouch (depth + 1))
  let moved : FixedBuf := ⟨0, mark, touched, mark, pend, start, false, true, ⟨mem⟩⟩
  let marked : FixedBuf := ⟨0, mark, mark, mark, pend, start, false, true, ⟨mem⟩⟩
  let emptied : FixedBuf := ⟨0, mark, mark, mark, pend, mark, true, true, ⟨mem⟩⟩
  have hppos : moved.ppos = mark := Nat.zero_add mark
  -- `touch` comes back, and now the position is not behind the high watermark
  have htouch : (@Attempt.touch Fixed d).run moved = .ok () marked := by
    show (if touched ≠ moved.ppos then reallyTouch (depth + 1) else pure () :
      Attempt Fixed Unit).run moved = _
    rw [hppos]
    split_ifs with hsame
    · show (if mark < moved.ppos then _ else set { moved with lastTouched := moved.ppos } :
        Attempt Fixed Unit).run moved = _
      rw [hppos, if_neg (Nat.lt_irrefl mark)]
      rfl
    · have htouched : touched = mark := not_not.mp hsame
      subst htouched
      rfl
  have hplace : (@Attempt.place Fixed d []).run marked = .ok () emptied := by
    have hroom : ¬ mem.length < mark + 0 := by omega
    show ((if mem.length < mark + 0 then throw .undefined
      else set { marked with
        dirtyStart := mark, dev := { marked.dev with mem := splice mem mark [] } }) >>= fun _ =>
        modify fun s => { s with pnext := s.pnext + 0, dirty := true } :
          Attempt Fixed Unit).run { marked with dirtyStart := mark } = _
    rw [if_neg hroom, splice_nil]
    rfl
  have hfilln : (@Attempt.filln Fixed d (UInt8.ofNat (0 + next - mark)) 0).run moved =
      .ok () emptied := by
    show (@Attempt.prepare Fixed d >>= _ : Attempt Fixed Unit).run moved = _
    have hprepare : (@Attempt.prepare Fixed d).run moved = .ok () marked := htouch
    rw [run_bind_ok hprepare]
    exact hplace
  have hflush : (@Attempt.flush Fixed d).run emptied =
      .ok () ⟨0, mark, mark, mark, pend, mark, false, true, ⟨mem⟩⟩ := by
    show EStateM.Result.ok () { emptied.setHighWatermark with
      lastTouched := emptied.setHighWatermark.ppos, dirty := false } = _
    have hmark : emptied.setHighWatermark = emptied := by
      rw [Obstreambuf.setHighWatermark, if_neg]
      intro hlt
      exact absurd hlt.2 (hppos.le.not_gt)
    rw [hmark]
    show EStateM.Result.ok () { emptied with lastTouched := moved.ppos, dirty := false } = _
    rw [hppos]
  have hnext : mark < 0 + next := by omega
  show (if mark < 0 + next then _ else _ : Attempt Fixed Unit).run _ = _
  rw [if_pos hnext]
  show (@Attempt.filln Fixed d (UInt8.ofNat (0 + next - mark)) 0 >>= fun _ => @Attempt.flush Fixed d :
    Attempt Fixed Unit).run moved = _
  rw [run_bind_ok hfilln]
  exact hflush

end

/-- Memory of any size, whatever is in it: as long as no write starts behind the high watermark, every
call of a run reports what the bounded writer reports and leaves the bytes and the position that it
leaves. -/
theorem fixed_refined (mem : List UInt8) (ops : List FixedOp) (hops : InsideRun (create mem) ops) :
    run (create mem) ops = boundedRun mem.length ⟨[], 0⟩ ops := by
  apply Fits.run _ hops
  exact {
    bytes := rfl
    pos := rfl
    base := rfl
    window := rfl
    memory := rfl
    next := Nat.zero_le _
    mark := Nat.zero_le _
    writable := rfl }

/-- Overwriting, a seek out of the memory, and a block that does not fit. -/
def insideOps : List FixedOp :=
  [.put 1, .putn [2, 3], .seek .begin 1, .filln 7 1, .seek .end_ 0, .putn [4, 5], .seek .current 9,
    .put 6, .put 8, .tell .end_, .flush]

theorem fixed_refined_insideOps :
    run (create [9, 9, 9, 9]) insideOps = boundedRun 4 ⟨[], 0⟩ insideOps := by
  refine fixed_refined [9, 9, 9, 9] insideOps ?_
  decide +kernel

/-- A seek behind the end and a byte: it goes where the end was. -/
theorem gap_not_filled :
    run (create [9, 9, 9, 9]) [.put 1, .seek .begin 3, .put 2] =
        [(none, ⟨[1], 1⟩), (none, ⟨[1], 3⟩), (none, ⟨[1, 2], 2⟩)] ∧
      boundedRun 4 ⟨[], 0⟩ [.put 1, .seek .begin 3, .put 2] =
        [(none, ⟨[1], 1⟩), (none, ⟨[1], 3⟩), (none, ⟨[1, 0, 0, 2], 4⟩)] := by
  decide +kernel

end Fixed

end Nodeoze.Bstream
