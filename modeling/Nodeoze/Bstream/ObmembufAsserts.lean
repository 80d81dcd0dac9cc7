import Nodeoze.Lib.Fallible
import Nodeoze.Bstream.ObmembufRefines

/-!
# The assertions of the memory buffer

The functions of `obstreambuf` and `obmembuf` with their assertions, as a build without `NDEBUG` runs
them.  `dirty_start` is compared as a pointer, so it is kept as one: after `force_unique` or `resize`
it may point into a block that the buffer has left.

`Tidy` is the state in which the assertions of a flush hold.  Three kinds of calls leave it or find the
buffer where `really_touch` does not want it; without them no assertion fails, and the buffer does what
it does in the release build.
-/

namespace Nodeoze.Bstream

open RefHeap Buffer Splice

/-- How a checked call ends without a value: an assertion fails, or what the release build does. -/
inductive Abort
  | assertion
  | failure (e : Failure)
  deriving DecidableEq, Repr

/-- The buffer with `m_dirty_start`. -/
structure Watched where
  buf : Obmembuf
  start : Option Ptr

namespace Watched

/-- `assert( p )` -/
def check (p : Prop) [Decidable p] : Except Abort Unit := if p then pure () else throw .assertion

/-- A part of the code without assertions. -/
def on (w : Watched) (f : Obmembuf → Except Failure Obmembuf) : Except Abort Watched := do
  let s ← (f w.buf).mapError .failure
  pure { w with buf := s }

/-- `pbase() + n` -/
def at_ (w : Watched) (n : Nat) : Option Ptr := w.buf.dev.pbase.map (Ptr.add · n)

/-- `pnext() > dirty_start()`.  Nothing is known about pointers into different blocks. -/
def startsBefore (w : Watched) : Bool :=
  match w.start, w.at_ w.buf.pnext with
  | some p, some q => decide (p.blk = q.blk ∧ p.gen = q.gen ∧ p.off < q.off)
  | _, _ => false

def reallyFlush (w : Watched) : Except Abort Watched := do
  check (w.buf.dirty = true ∧ w.startsBefore = true)
  pure w

def flush (w : Watched) : Except Abort Watched :=
  if w.buf.dirty then do
    check (w.buf.writable = true)
    let w ← w.reallyFlush
    let s := w.buf.setHighWatermark
    pure { w with buf := { s with lastTouched := s.ppos, dirty := false } }
  else pure w

def reallyTouch (w : Watched) : Except Abort Watched := do
  let hwm := w.buf.highWatermark
  let pos := w.buf.ppos
  check (hwm < w.buf.pend ∧ pos ≤ w.buf.pend)
  check (w.buf.lastTouched ≠ pos)
  if hwm < pos then do
    let w : Watched := ⟨{ w.buf with dirtyStart := hwm }, w.at_ hwm⟩
    let w ← w.on fun s => Obmembuf.store s s.dirtyStart (List.replicate (pos - hwm) 0)
    let w ← flush { w with buf := { w.buf with dirty := true } }
    check (w.buf.ppos = pos)
    check (w.buf.highWatermark = pos)
    check (w.buf.lastTouched = pos)
    pure w
  else do
    check (pos ≤ hwm)
    pure { w with buf := { w.buf with lastTouched := pos } }

def touch (w : Watched) : Except Abort Watched := do
  check (w.buf.dirty = false)
  check (w.buf.writable = true)
  let pos := w.buf.ppos
  let w ← if w.buf.lastTouched ≠ pos then w.reallyTouch else pure w
  check (w.buf.ppos = pos)
  check (pos = w.buf.lastTouched)
  check (w.buf.dirty = false)
  pure w

/-- `m_buf.size()` -/
def bufferSize (s : Obmembuf) : Except Failure Nat := do
  let h ← defined (s.dev.heap.bufs s.dev.buf)
  pure h.size

def reallyOverflow (w : Watched) (n : Nat) : Except Abort Watched := do
  check (w.buf.pnext ≤ w.buf.pend)
  let size ← (bufferSize w.buf).mapError .failure
  check (size < w.buf.pnext + n)
  w.on fun s => Obmembuf.reallyOverflow s n

def overflow (w : Watched) (requested : Nat) : Except Abort Watched := do
  let w ← w.flush
  let w ← w.reallyOverflow requested
  check (w.buf.pnext < w.buf.pend)
  pure w

def prepare (w : Watched) : Except Abort Watched := do
  let w ← w.on Obstreambuf.makeWritable
  if w.buf.dirty then pure w else w.touch

def place (w : Watched) (src : List UInt8) : Except Abort Watched := do
  let w : Watched :=
    if w.buf.dirty then w else ⟨{ w.buf with dirtyStart := w.buf.pnext }, w.at_ w.buf.pnext⟩
  let w ← w.on fun s => Obmembuf.store s s.pnext src
  pure { w with buf := { w.buf with pnext := w.buf.pnext + src.length, dirty := true } }

def put (w : Watched) (byte : UInt8) : Except Abort Watched := do
  let w ← w.prepare
  let w ← if w.buf.pend ≤ w.buf.pnext then do
      check (w.buf.pnext = w.buf.pend)
      let w ← w.overflow 1
      check (w.buf.dirty = false)
      pure w
    else pure w
  w.place [byte]

def putChunks : Nat → Watched → List UInt8 → Except Abort Watched
  | _, w, [] => pure w
  | 0, _, _ :: _ => throw (.failure .loops)
  | rounds + 1, w, b :: src => do
    let w ← if w.buf.pend ≤ w.buf.pnext then do
        check (w.buf.pnext = w.buf.pend)
        w.overflow (b :: src).length
      else pure w
    check (0 < w.buf.pend - w.buf.pnext)
    let chunkSize := min (b :: src).length (w.buf.pend - w.buf.pnext)
    let w ← w.place ((b :: src).take chunkSize)
    putChunks rounds w ((b :: src).drop chunkSize)

def putn (w : Watched) (src : List UInt8) : Except Abort Watched := do
  let w ← w.prepare
  if src.length ≤ w.buf.pend - w.buf.pnext then w.place src
  else do
    let w ← w.overflow src.length
    if src.length ≤ w.buf.pend - w.buf.pnext then w.place src else putChunks src.length w src

def filln (w : Watched) (byte : UInt8) (n : Nat) : Except Abort Watched :=
  w.putn (List.replicate n byte)

/-- `really_seek`; the position it returns is left out. -/
def seek (w : Watched) (where_ : SeekAnchor) (offset : Int) : Except Abort Watched := do
  let w ← w.flush
  let result := w.buf.target where_ offset
  if result < 0 then pure w
  else if w.buf.pend ≤ result.toNat then
    w.on fun s => do
      let s ← Obmembuf.resize s result.toNat
      Obmembuf.setPtrs s result.toNat
  else pure { w with buf := { w.buf with pnext := result.toNat } }

/-- The other calls have no assertions. -/
def step (w : Watched) : Op → Except Abort Watched
  | .put byte => w.put byte
  | .putn src => w.putn src
  | .filln byte n => w.filln byte n
  | .seek where_ offset => w.seek where_ offset
  | .flush => w.flush
  | op => w.on fun s => do
    let (_, s) ← Obmembuf.step s op
    pure s

def run (w : Watched) : List Op → Except Abort Watched
  | [] => pure w
  | op :: ops => do
    let w ← w.step op
    run w ops

/-! ### The calls that keep the assertions -/

/-- Nothing is written while nothing is unflushed, no write starts away from where the last one ended
when the buffer is full, and the buffer is not shared while something is unflushed. -/
def Careful (s : Obmembuf) : Op → Prop
  | .getBuffer forceCopy =>
    s.dirty = true → forceCopy = true ∨ isPolicy s.dev.heap s.dev.buf .copyOnWrite ≠ some true
  | op => ∀ src ∈ op.written, (src = [] → s.dirty = true) ∧
    (s.dirty = false → s.highWatermark = s.pend → s.lastTouched = s.ppos)

instance (s : Obmembuf) (op : Op) : Decidable (Careful s op) := by
  cases op <;> unfold Careful Op.written <;> infer_instance

def CarefulRun (s : Obmembuf) : List Op → Prop
  | [] => True
  | op :: ops =>
    Careful s op ∧
    match Obmembuf.step s op with
    | .ok (_, s') => CarefulRun s' ops
    | .error _ => True

instance CarefulRun.decide (s : Obmembuf) : (ops : List Op) → Decidable (CarefulRun s ops)
  | [] => isTrue trivial
  | op :: ops => by
    have hrest : Decidable (match Obmembuf.step s op with
        | .ok (_, s') => CarefulRun s' ops
        | .error _ => True) :=
      match Obmembuf.step s op with
      | .ok (_, s') => CarefulRun.decide s' ops
      | .error _ => isTrue trivial
    exact instDecidableAnd

/-- What is unflushed may be written, and starts in front of the position. -/
structure Tidy (w : Watched) : Prop where
  writable : w.buf.dirty = true → w.buf.writable = true
  before : w.buf.dirty = true → w.startsBefore = true

section

variable {w w' : Watched} {s s' : Obmembuf} {h : Handle} {B : Block UInt8 Policy} {c : List UInt8}

theorem check_bind {α : Type} {p : Prop} [Decidable p] (hp : p) (k : Except Abort α) :
    (check p >>= fun _ => k) = k := by
  rw [check, if_pos hp]
  rfl

theorem on_eq {f : Obmembuf → Except Failure Obmembuf} (hf : f w.buf = .ok s) :
    w.on f = .ok { w with buf := s } := by
  rw [on, hf]
  rfl

theorem Tidy.of_clean (hclean : w.buf.dirty = false) : Tidy w where
  writable := fun hdirty => absurd (hclean.symm.trans hdirty) Bool.false_ne_true
  before := fun hdirty => absurd (hclean.symm.trans hdirty) Bool.false_ne_true

/-- A buffer with room has memory. -/
theorem base_of_pos (i : Obmembuf.Inv s h B c) (hpos : 0 < s.pend) : ∃ p, s.dev.pbase = some p := by
  rw [i.base]
  have hwithin := i.owned.within
  unfold Handle.Within at hwithin
  rcases hdata : h.data with _ | p
  · rw [hdata] at hwithin
    have hzero : s.pend = 0 := i.pend.trans hwithin.1
    omega
  · exact ⟨p, rfl⟩

theorem startsBefore_iff : w.startsBefore = true ↔ ∃ p b, w.start = some p ∧
    w.buf.dev.pbase = some b ∧ p.blk = b.blk ∧ p.gen = b.gen ∧ p.off < b.off + w.buf.pnext := by
  unfold startsBefore at_
  rcases w.start with _ | p
  · simp
  · rcases w.buf.dev.pbase with _ | b
    · simp
    · simp [Ptr.add]

theorem startsBefore_of {b : Ptr} {n : Nat} (hbase : w.buf.dev.pbase = some b)
    (hstart : w.start = some (b.add n)) (hn : n < w.buf.pnext) : w.startsBefore = true :=
  startsBefore_iff.mpr ⟨b.add n, b, hstart, hbase, rfl, rfl, Nat.add_lt_add_left hn b.off⟩

theorem flush_eq (i : Obmembuf.Inv w.buf h B c) (ht : Tidy w) :
    w.flush = .ok { w with buf := Obmembuf.flushed w.buf } := by
  have hrelease := Obmembuf.flush_eq i
  by_cases hdirty : w.buf.dirty = true
  · rw [Obstreambuf.flush, if_pos hdirty] at hrelease
    have hbuf := Except.ok.inj hrelease
    rw [flush, if_pos hdirty, check_bind (ht.writable hdirty), reallyFlush,
      check_bind ⟨hdirty, ht.before hdirty⟩, ← hbuf]
    rfl
  · rw [Obstreambuf.flush, if_neg hdirty] at hrelease
    have hbuf : w.buf = Obmembuf.flushed w.buf := Except.ok.inj hrelease
    rw [flush, if_neg hdirty, ← hbuf]
    rfl

/-- `really_touch` in front of a write that has room behind the high watermark. -/
theorem reallyTouch_passes (i : Obmembuf.Inv w.buf h B c) (hw : Writable B)
    (hwr : w.buf.writable = true) (hroom : w.buf.highWatermark < w.buf.pend)
    (hmoved : w.buf.lastTouched ≠ w.buf.ppos) (hclean : w.buf.dirty = false) :
    ∃ w', w.reallyTouch = .ok w' ∧ Obmembuf.reallyTouch w.buf = .ok w'.buf ∧
      w'.buf.ppos = w.buf.ppos ∧ w'.buf.lastTouched = w.buf.ppos ∧ w'.buf.dirty = false := by
  have hnext := i.next
  have hpos := i.ppos
  rw [reallyTouch, check_bind ⟨hroom, hpos.trans_le hnext⟩, check_bind hmoved, Obmembuf.reallyTouch]
  by_cases hgap : w.buf.highWatermark < w.buf.ppos
  · rw [if_pos hgap, if_pos hgap]
    obtain ⟨b, hb⟩ := base_of_pos i (Nat.lt_of_le_of_lt (Nat.zero_le _) hroom)
    let s₀ : Obmembuf := { w.buf with dirtyStart := w.buf.highWatermark }
    have i₀ : Obmembuf.Inv s₀ h B c :=
      ⟨i.owned, i.base, i.pend, i.offset, i.next, i.mark, i.touched⟩
    have hfit : w.buf.highWatermark +
        (List.replicate (w.buf.ppos - w.buf.highWatermark) (0 : UInt8)).length ≤ w.buf.pend := by
      rw [List.length_replicate]
      omega
    obtain ⟨H', B', hstore, i', -, -⟩ := Obmembuf.store_spec i₀ hw w.buf.highWatermark _ hfit
    let w₁ : Watched := ⟨{ Obmembuf.setHeap s₀ H' with dirty := true }, w.at_ w.buf.highWatermark⟩
    have i₁ : Obmembuf.Inv w₁.buf h B' _ :=
      ⟨i'.owned, i'.base, i'.pend, i'.offset, i'.next, i'.mark, i'.touched⟩
    have ht₁ : Tidy w₁ := by
      refine ⟨fun _ => hwr, fun _ => startsBefore_of hb ?_ (hpos ▸ hgap)⟩
      show w.at_ w.buf.highWatermark = _
      rw [at_, hb]
      rfl
    have hmark : (Obmembuf.flushed w₁.buf).highWatermark = w.buf.ppos := by
      show max w.buf.highWatermark w.buf.pnext = w.buf.ppos
      omega
    refine ⟨{ w₁ with buf := Obmembuf.flushed w₁.buf }, ?_, ?_, rfl, hpos.symm, rfl⟩
    · show (on ⟨s₀, w.at_ w.buf.highWatermark⟩ _ >>= _) = _
      rw [on_eq hstore]
      show (flush w₁ >>= _) = _
      rw [flush_eq i₁ ht₁]
      show (check ((Obmembuf.flushed w₁.buf).ppos = w.buf.ppos) >>= fun _ =>
        check ((Obmembuf.flushed w₁.buf).highWatermark = w.buf.ppos) >>= fun _ =>
        check ((Obmembuf.flushed w₁.buf).lastTouched = w.buf.ppos) >>= fun _ => _) = _
      have hsame : (Obmembuf.flushed w₁.buf).ppos = w.buf.ppos := rfl
      have htouched : (Obmembuf.flushed w₁.buf).lastTouched = w.buf.ppos := hpos.symm
      rw [check_bind hsame, check_bind hmark, check_bind htouched]
      rfl
    · show (Obmembuf.store s₀ w.buf.highWatermark _ >>= _) = _
      rw [hstore]
      exact Obmembuf.flush_eq i₁
  · rw [if_neg hgap, if_neg hgap, check_bind (Nat.le_of_not_lt hgap)]
    exact ⟨_, rfl, rfl, rfl, rfl, hclean⟩

theorem touch_passes (i : Obmembuf.Inv w.buf h B c) (hw : Writable B)
    (hwr : w.buf.writable = true) (hclean : w.buf.dirty = false)
    (hroom : w.buf.highWatermark = w.buf.pend → w.buf.lastTouched = w.buf.ppos) :
    ∃ w', w.touch = .ok w' ∧ Obstreambuf.touch w.buf = .ok w'.buf ∧ w'.buf.dirty = false := by
  rw [touch, check_bind hclean, check_bind hwr, Obstreambuf.touch]
  by_cases hmoved : w.buf.lastTouched ≠ w.buf.ppos
  · have hmark := i.mark
    have hlt : w.buf.highWatermark < w.buf.pend := by
      by_contra hge
      exact hmoved (hroom (by omega))
    obtain ⟨w', hchecked, hrelease, hpos, htouched, hclean'⟩ :=
      reallyTouch_passes i hw hwr hlt hmoved hclean
    rw [if_pos hmoved, if_pos hmoved]
    refine ⟨w', ?_, hrelease, hclean'⟩
    show (w.reallyTouch >>= fun w' => check (w'.buf.ppos = w.buf.ppos) >>= fun _ => _) = _
    rw [hchecked]
    show (check (w'.buf.ppos = w.buf.ppos) >>= fun _ => check (w.buf.ppos = w'.buf.lastTouched) >>=
      fun _ => check (w'.buf.dirty = false) >>= fun _ => _) = _
    rw [check_bind hpos, check_bind htouched.symm, check_bind hclean']
    rfl
  · have hsame : w.buf.ppos = w.buf.lastTouched := (not_not.mp hmoved).symm
    rw [if_neg hmoved, if_neg hmoved]
    refine ⟨w, ?_, rfl, hclean⟩
    show (check (w.buf.ppos = w.buf.ppos) >>= fun _ => check (w.buf.ppos = w.buf.lastTouched) >>=
      fun _ => check (w.buf.dirty = false) >>= fun _ => _) = _
    rw [check_bind rfl, check_bind hsame, check_bind hclean]
    rfl

theorem lastTouched_setPtrs {n : Nat} (hok : Obmembuf.setPtrs s n = .ok s') :
    s'.lastTouched = s.lastTouched := by
  obtain ⟨h, -, hok⟩ := Fallible.bind_eq_ok.mp hok
  obtain rfl := Except.ok.inj hok
  rfl

theorem lastTouched_makeWritable (hok : Obstreambuf.makeWritable s = .ok s') :
    s'.lastTouched = s.lastTouched := by
  unfold Obstreambuf.makeWritable at hok
  split_ifs at hok
  · obtain rfl := Except.ok.inj hok
    rfl
  · obtain ⟨s₁, hreally, hok⟩ := Fallible.bind_eq_ok.mp hok
    obtain rfl := Except.ok.inj hok
    show s₁.lastTouched = s.lastTouched
    obtain ⟨b, -, hreally⟩ := Fallible.bind_eq_ok.mp hreally
    split_ifs at hreally
    · obtain rfl := Except.ok.inj hreally
      rfl
    · obtain ⟨H, -, hreally⟩ := Fallible.bind_eq_ok.mp hreally
      have hptrs := lastTouched_setPtrs hreally
      exact hptrs

/-- What a write does first. -/
theorem prepare_passes (i : Obmembuf.Inv w.buf h B c) (hw : w.buf.writable = true → Writable B)
    (ht : Tidy w)
    (hroom : w.buf.dirty = false → w.buf.highWatermark = w.buf.pend → w.buf.lastTouched = w.buf.ppos) :
    ∃ w', w.prepare = .ok w' ∧ Obstreambuf.prepare w.buf = .ok w'.buf ∧ Tidy w' ∧
      w'.buf.dirty = w.buf.dirty := by
  obtain ⟨s₁, h₁, B₁, c₁, hmake, i₁, -, hwr₁, hd₁, hn₁, hp₁, hm₁, -, -, hw₁⟩ :=
    Obmembuf.makeWritable_spec i
  rw [prepare, on_eq hmake, Obstreambuf.prepare, hmake]
  show ∃ w', (if s₁.dirty = true then .ok ⟨s₁, w.start⟩ else touch ⟨s₁, w.start⟩) = .ok w' ∧
    (if s₁.dirty = true then .ok s₁ else Obstreambuf.touch s₁) = .ok w'.buf ∧ _
  by_cases hdirty : s₁.dirty = true
  · rw [if_pos hdirty, if_pos hdirty]
    -- the flag is set already, so the block is the one that `dirty_start` points into
    have hdirty' : w.buf.dirty = true := hd₁.symm.trans hdirty
    rw [Obstreambuf.makeWritable, if_pos (ht.writable hdirty')] at hmake
    obtain rfl := Except.ok.inj hmake
    exact ⟨w, rfl, rfl, ht, rfl⟩
  · rw [if_neg hdirty, if_neg hdirty]
    have hclean : s₁.dirty = false := by simpa using hdirty
    have hsame : s₁.highWatermark = s₁.pend → s₁.lastTouched = s₁.ppos := by
      intro hfull
      rw [lastTouched_makeWritable hmake, i₁.ppos, hn₁, ← i.ppos]
      exact hroom (hd₁.symm.trans hclean) (by rw [← hm₁, ← hp₁, hfull])
    let w₁ : Watched := ⟨s₁, w.start⟩
    have hw₁' : Obmembuf.Inv w₁.buf h₁ B₁ c₁ := i₁
    obtain ⟨w', hchecked, hrelease, hclean'⟩ := touch_passes hw₁' (hw₁ hw) hwr₁ hclean hsame
    exact ⟨w', hchecked, hrelease, .of_clean hclean', by rw [hclean', ← hd₁, hclean]⟩

theorem reallyOverflow_eq (i : Obmembuf.Inv w.buf h B c) {n : Nat}
    (hn : w.buf.pend < w.buf.pnext + n) (hok : Obmembuf.reallyOverflow w.buf n = .ok s) :
    w.reallyOverflow n = .ok { w with buf := s } := by
  have hsize : bufferSize w.buf = .ok w.buf.pend := by
    rw [bufferSize, i.owned.buf, i.pend]
    rfl
  rw [reallyOverflow, check_bind i.next, hsize]
  show (check (w.buf.pend < w.buf.pnext + n) >>= fun _ => _) = _
  rw [check_bind hn, on_eq hok]

/-- An overflow for more bytes than there is room for. -/
theorem overflow_passes (i : Obmembuf.Inv w.buf h B c) (ht : Tidy w) {n : Nat}
    (hn : w.buf.pend < w.buf.pnext + n) :
    ∃ w', w.overflow n = .ok w' ∧ Obstreambuf.overflow w.buf n = .ok w'.buf ∧
      w'.buf.dirty = false := by
  let w₁ : Watched := { w with buf := Obmembuf.flushed w.buf }
  have i₁ : Obmembuf.Inv w₁.buf h B c := i.flushed
  obtain ⟨s', -, -, -, hresize, -, -, -, hclean, -, hpos, -, hroom, -, -, -⟩ :=
    Obmembuf.resize_spec i₁ (w.buf.pnext + n) w.buf.pnext hn.le (Nat.le_add_right _ _)
  have hreally : Obmembuf.reallyOverflow w₁.buf n = .ok s' := by
    rw [Obmembuf.reallyOverflow, i₁.ppos]
    exact hresize
  have hpnext : s'.pnext < s'.pend := hpos.trans_lt hroom
  refine ⟨⟨s', w.start⟩, ?_, ?_, hclean⟩
  · rw [overflow, flush_eq i ht]
    show (w₁.reallyOverflow n >>= _) = _
    rw [reallyOverflow_eq i₁ hn hreally]
    show (check (s'.pnext < s'.pend) >>= fun _ => _) = _
    rw [check_bind hpnext]
    rfl
  · rw [Obstreambuf.overflow, Obmembuf.flush_eq i]
    exact hreally

/-- Storing bytes keeps the window where it is. -/
theorem store_setHeap {off : Nat} {src : List UInt8} (hok : Obmembuf.store s off src = .ok s') :
    ∃ H, s' = Obmembuf.setHeap s H := by
  obtain ⟨H, -, hok⟩ := Fallible.bind_eq_ok.mp hok
  exact ⟨H, (Except.ok.inj hok).symm⟩

/-- The window in front of a block that is placed, with `dirty_start` set if nothing was unflushed. -/
def started (w : Watched) : Watched :=
  if w.buf.dirty then w else ⟨{ w.buf with dirtyStart := w.buf.pnext }, w.at_ w.buf.pnext⟩

theorem started_buf (w : Watched) : w.started.buf =
    if w.buf.dirty then w.buf else { w.buf with dirtyStart := w.buf.pnext } := by
  unfold started
  split_ifs <;> rfl

theorem startsBefore_moved (hbefore : w.startsBefore = true)
    (hbase : s.dev.pbase = w.buf.dev.pbase) (hle : w.buf.pnext ≤ s.pnext) :
    startsBefore ⟨s, w.start⟩ = true := by
  obtain ⟨p, b, hp, hb, hblk, hgen, hoff⟩ := startsBefore_iff.mp hbefore
  have hoff' : p.off < b.off + s.pnext := by omega
  exact startsBefore_iff.mpr ⟨p, b, hp, hbase.trans hb, hblk, hgen, hoff'⟩

/-- A block that is placed is unflushed from its first byte on. -/
theorem startsBefore_placed (i : Obmembuf.Inv w.buf h B c) (ht : Tidy w) {src : List UInt8}
    (hfit : w.buf.pnext + src.length ≤ w.buf.pend) (hsrc : src = [] → w.buf.dirty = true)
    (hbase : s.dev.pbase = w.buf.dev.pbase) (hpnext : s.pnext = w.buf.pnext + src.length) :
    startsBefore ⟨s, w.started.start⟩ = true := by
  unfold started
  by_cases hdirty : w.buf.dirty = true
  · rw [if_pos hdirty]
    exact startsBefore_moved (ht.before hdirty) hbase (by omega)
  · have hpos : 0 < src.length := by
      apply List.length_pos_iff.mpr
      intro hnil
      exact hdirty (hsrc hnil)
    obtain ⟨b, hb⟩ := base_of_pos i (by omega)
    rw [if_neg hdirty]
    have hstart : w.at_ w.buf.pnext = some (b.add w.buf.pnext) := by
      rw [at_, hb]
      rfl
    rw [hb] at hbase
    have hlt : w.buf.pnext < s.pnext := by omega
    exact startsBefore_of (w := ⟨s, _⟩) hbase hstart hlt

theorem place_passes (i : Obmembuf.Inv w.buf h B c) (hw : Writable B) (ht : Tidy w)
    (hwr : w.buf.writable = true) {src : List UInt8} (hfit : w.buf.pnext + src.length ≤ w.buf.pend)
    (hsrc : src = [] → w.buf.dirty = true) :
    ∃ w', w.place src = .ok w' ∧ Obstreambuf.place w.buf src = .ok w'.buf ∧ Tidy w' := by
  obtain ⟨s', B', hplace, -, -, -, hwr', hpnext, -, -⟩ := Obmembuf.place_spec i hw hfit
  have hrelease := hplace
  unfold Obstreambuf.place at hrelease
  simp only [← started_buf] at hrelease
  obtain ⟨s₂, hstore, hs'⟩ := Fallible.bind_eq_ok.mp hrelease
  have hs' := Except.ok.inj hs'
  have hbase : s'.dev.pbase = w.buf.dev.pbase := by
    obtain ⟨H, rfl⟩ := store_setHeap hstore
    rw [← hs']
    show w.started.buf.dev.pbase = _
    rw [started_buf]
    split_ifs <;> rfl
  refine ⟨⟨s', w.started.start⟩, ?_, hplace, ?_⟩
  · show (w.started.on (fun s => Obmembuf.store s s.pnext src) >>= _) = _
    rw [on_eq hstore, ← hs']
    rfl
  · exact {
      writable := fun _ => hwr'.trans hwr
      before := fun _ => startsBefore_placed i ht hfit hsrc hbase hpnext }

/-- The window of a write: prepared, and ready to take the bytes as it is or after an overflow. -/
theorem window_passes (i : Obmembuf.Inv w.buf h B c) (hw : w.buf.writable = true → Writable B)
    (ht : Tidy w) {src : List UInt8} (hsrc : src = [] → w.buf.dirty = true)
    (hroom : w.buf.dirty = false → w.buf.highWatermark = w.buf.pend → w.buf.lastTouched = w.buf.ppos) :
    ∃ w₁, w.prepare = .ok w₁ ∧ Obstreambuf.prepare w.buf = .ok w₁.buf ∧
      w₁.buf.pnext ≤ w₁.buf.pend ∧
      (src.length ≤ w₁.buf.pend - w₁.buf.pnext →
        ∃ w', w₁.place src = .ok w' ∧ Obstreambuf.place w₁.buf src = .ok w'.buf ∧ Tidy w') ∧
      (¬ src.length ≤ w₁.buf.pend - w₁.buf.pnext →
        ∃ w₂ w', w₁.overflow src.length = .ok w₂ ∧
          Obstreambuf.overflow w₁.buf src.length = .ok w₂.buf ∧ w₂.buf.dirty = false ∧
          src.length ≤ w₂.buf.pend - w₂.buf.pnext ∧
          w₂.place src = .ok w' ∧ Obstreambuf.place w₂.buf src = .ok w'.buf ∧ Tidy w') := by
  obtain ⟨w₁, hprep, hrelease, ht₁, hd₁⟩ := prepare_passes i hw ht hroom
  obtain ⟨s₁, h₁, B₁, c₁, hspec, i₁, -, hw₁, hwr₁, -, -, -⟩ := Obmembuf.prepare_spec i hw
  obtain rfl := Except.ok.inj (hrelease.symm.trans hspec)
  have hnext := i₁.next
  refine ⟨w₁, hprep, hrelease, hnext, ?_, ?_⟩
  · intro hfit
    refine place_passes i₁ hw₁ ht₁ hwr₁ (by omega) ?_
    intro hnil
    rw [hd₁]
    exact hsrc hnil
  · intro hfull
    obtain ⟨w₂, hover, hrelease₂, hclean⟩ := overflow_passes i₁ ht₁ (n := src.length) (by omega)
    obtain ⟨s₂, h₂, B₂, c₂, hspec₂, i₂, -, hw₂, hwr₂, hpnext, hle, -, -⟩ :=
      Obmembuf.room_spec i₁ hw₁ src.length
    rw [if_neg hfull] at hspec₂
    obtain rfl := Except.ok.inj (hrelease₂.symm.trans hspec₂)
    have hfit : w₂.buf.pnext + src.length ≤ w₂.buf.pend := by omega
    have hne : src = [] → w₂.buf.dirty = true := by
      rintro rfl
      exact absurd (Nat.zero_le _) hfull
    obtain ⟨w', hplace, hrelease', ht'⟩ :=
      place_passes i₂ hw₂ (.of_clean hclean) (hwr₂.trans hwr₁) hfit hne
    exact ⟨w₂, w', hover, hrelease₂, hclean, by omega, hplace, hrelease', ht'⟩

theorem putn_passes (i : Obmembuf.Inv w.buf h B c) (hw : w.buf.writable = true → Writable B)
    (ht : Tidy w) {src : List UInt8} (hsrc : src = [] → w.buf.dirty = true)
    (hroom : w.buf.dirty = false → w.buf.highWatermark = w.buf.pend → w.buf.lastTouched = w.buf.ppos) :
    ∃ w', w.putn src = .ok w' ∧ Obstreambuf.putn w.buf src = .ok w'.buf ∧ Tidy w' := by
  obtain ⟨w₁, hprep, hrelease, -, hfits, hfull⟩ := window_passes i hw ht hsrc hroom
  rw [putn, Obstreambuf.putn, hprep, hrelease]
  show ∃ w', (if src.length ≤ w₁.buf.pend - w₁.buf.pnext then w₁.place src else _) = .ok w' ∧
    (if src.length ≤ w₁.buf.pend - w₁.buf.pnext then Obstreambuf.place w₁.buf src else _) =
      .ok w'.buf ∧ _
  by_cases hfit : src.length ≤ w₁.buf.pend - w₁.buf.pnext
  · rw [if_pos hfit, if_pos hfit]
    exact hfits hfit
  · rw [if_neg hfit, if_neg hfit]
    obtain ⟨w₂, w', hover, hrelease₂, -, hfit₂, hplace, hrelease', ht'⟩ := hfull hfit
    refine ⟨w', ?_, ?_, ht'⟩
    · rw [hover]
      show (if src.length ≤ w₂.buf.pend - w₂.buf.pnext then w₂.place src else _) = _
      rw [if_pos hfit₂, hplace]
    · rw [hrelease₂]
      show (if src.length ≤ w₂.buf.pend - w₂.buf.pnext then Obstreambuf.place w₂.buf src else _) = _
      rw [if_pos hfit₂, hrelease']

theorem put_passes (i : Obmembuf.Inv w.buf h B c) (hw : w.buf.writable = true → Writable B)
    (ht : Tidy w) (byte : UInt8)
    (hroom : w.buf.dirty = false → w.buf.highWatermark = w.buf.pend → w.buf.lastTouched = w.buf.ppos) :
    ∃ w', w.put byte = .ok w' ∧ Obstreambuf.put w.buf byte = .ok w'.buf ∧ Tidy w' := by
  have hsrc : [byte] = [] → w.buf.dirty = true := fun hnil => absurd hnil (List.cons_ne_nil _ _)
  obtain ⟨w₁, hprep, hrelease, hnext, hfits, hfull⟩ := window_passes i hw ht hsrc hroom
  rw [List.length_singleton] at hfits hfull
  rw [put, Obstreambuf.put, hprep, hrelease]
  by_cases hroom₁ : w₁.buf.pend ≤ w₁.buf.pnext
  · obtain ⟨w₂, w', hover, hrelease₂, hclean, -, hplace, hrelease', ht'⟩ := hfull (by omega)
    refine ⟨w', ?_, ?_, ht'⟩
    · have heq : w₁.buf.pnext = w₁.buf.pend := by omega
      show (if w₁.buf.pend ≤ w₁.buf.pnext then _ else _) = _
      rw [if_pos hroom₁]
      show (check (w₁.buf.pnext = w₁.buf.pend) >>= fun _ => w₁.overflow 1 >>= _) = _
      rw [check_bind heq, hover]
      show (check (w₂.buf.dirty = false) >>= fun _ => w₂.place [byte]) = _
      rw [check_bind hclean, hplace]
    · show (if w₁.buf.pend ≤ w₁.buf.pnext then Obstreambuf.overflow w₁.buf 1 >>= _ else _) = _
      rw [if_pos hroom₁, hrelease₂]
      exact hrelease'
  · obtain ⟨w', hplace, hrelease', ht'⟩ := hfits (by omega)
    refine ⟨w', ?_, ?_, ht'⟩
    · show (if w₁.buf.pend ≤ w₁.buf.pnext then _ else w₁.place [byte]) = _
      rw [if_neg hroom₁, hplace]
    · show (if w₁.buf.pend ≤ w₁.buf.pnext then _ else Obstreambuf.place w₁.buf [byte]) = _
      rw [if_neg hroom₁, hrelease']

/-! ### Runs -/

/-- A call that moves neither the window nor the position. -/
theorem Tidy.same (ht : Tidy w) (hdirty : s.dirty = true → w.buf.dirty = true)
    (hwritable : s.dirty = true → w.buf.writable = true → s.writable = true)
    (hbase : s.dev.pbase = w.buf.dev.pbase) (hpnext : s.pnext = w.buf.pnext) : Tidy ⟨s, w.start⟩ where
  writable := fun hd => hwritable hd (ht.writable (hdirty hd))
  before := fun hd => startsBefore_moved (ht.before (hdirty hd)) hbase hpnext.ge

theorem getBuffer_flags {forceCopy : Bool} {slot : Nat}
    (hok : Obmembuf.getBuffer s forceCopy = .ok (slot, s')) : s'.dirty = s.dirty ∧
      (forceCopy = true ∨ isPolicy s.dev.heap s.dev.buf .copyOnWrite ≠ some true →
        s'.writable = s.writable) := by
  unfold Obmembuf.getBuffer at hok
  rcases hcow : isPolicy s.dev.heap s.dev.buf .copyOnWrite with _ | cow
  · rw [hcow] at hok
    cases hok
  · rw [hcow, Obmembuf.defined_some, ok_bind] at hok
    obtain ⟨H, -, hok⟩ := Fallible.bind_eq_ok.mp hok
    obtain ⟨-, rfl⟩ := Prod.mk.inj (Except.ok.inj hok)
    have hmark : ∀ t : Obmembuf, (if t.dirty then t.setHighWatermark else t).dirty = t.dirty ∧
        (if t.dirty then t.setHighWatermark else t).writable = t.writable := by
      intro t
      obtain ⟨n, hn⟩ := t.setHighWatermark_exists
      rw [hn]
      split_ifs <;> exact ⟨rfl, rfl⟩
    refine ⟨(hmark _).1.trans ?_, ?_⟩
    · split_ifs <;> rfl
    · intro hkeep
      refine (hmark _).2.trans ?_
      rw [if_neg]
      rcases hkeep with hforce | hpolicy
      · simp [hforce]
      · simpa using fun _ hc => hpolicy (congrArg some hc)

/-- The buffer in a run that has kept the assertions. -/
structure Sane (w : Watched) (h : Handle) (B : Block UInt8 Policy) (c : List UInt8) : Prop where
  inv : Obmembuf.Inv w.buf h B c
  free : w.buf.writable = true → Writable B
  tidy : Tidy w

theorem seek_passes (hs : Sane w h B c) (where_ : SeekAnchor) (offset : Int) :
    ∃ w' r h' B' c', w.seek where_ offset = .ok w' ∧
      Obmembuf.seek w.buf where_ offset = .ok (r, w'.buf) ∧ Sane w' h' B' c' := by
  rw [seek, flush_eq hs.inv hs.tidy]
  by_cases hneg : (Obmembuf.flushed w.buf).target where_ offset < 0
  · refine ⟨{ w with buf := Obmembuf.flushed w.buf }, none, h, B, c, ?_,
      Obmembuf.seek_negative hs.inv hneg, hs.inv.flushed, hs.free, .of_clean rfl⟩
    show (if (Obmembuf.flushed w.buf).target where_ offset < 0 then _ else _) = _
    rw [if_pos hneg]
    rfl
  · obtain ⟨pos, hpos⟩ := Int.eq_ofNat_of_zero_le (Int.not_lt.mp hneg)
    obtain ⟨s', h', B', c', hseek, i', -, -, hclean, hwr, -, -, hfree⟩ :=
      Obmembuf.seek_spec hs.inv hpos
    refine ⟨⟨s', w.start⟩, some pos, h', B', c', ?_, hseek, i',
      fun hf => hfree (hs.free (hwr ▸ hf)), .of_clean hclean⟩
    unfold Obmembuf.seek at hseek
    rw [Obmembuf.flush_eq hs.inv, ok_bind, if_neg hneg] at hseek
    show (if (Obmembuf.flushed w.buf).target where_ offset < 0 then _ else _) = _
    rw [if_neg hneg]
    split_ifs at hseek ⊢ with hfar
    · obtain ⟨s₁, hresize, hseek⟩ := Fallible.bind_eq_ok.mp hseek
      obtain ⟨s₂, hptrs, hseek⟩ := Fallible.bind_eq_ok.mp hseek
      obtain ⟨-, rfl⟩ := Prod.mk.inj (Except.ok.inj hseek)
      apply on_eq
      rw [hresize]
      exact hptrs
    · obtain ⟨-, rfl⟩ := Prod.mk.inj (Except.ok.inj hseek)
      rfl

/-- A call without assertions. -/
theorem on_step {op : Op} {o : Obs} (hok : Obmembuf.step w.buf op = .ok (o, s)) :
    (w.on fun s => do
      let (_, s) ← Obmembuf.step s op
      pure s) = .ok { w with buf := s } := by
  apply on_eq
  rw [hok]
  rfl

/-- What a write leaves. -/
theorem Sane.wrote {src : List UInt8} (ht : Tidy w') {h' : Handle} {B' : Block UInt8 Policy}
    {c' : List UInt8} (hwrote : Obmembuf.Wrote w.buf h B c src w'.buf h' B' c') : Sane w' h' B' c' :=
  ⟨hwrote.inv, fun _ => hwrote.free, ht⟩

theorem tell_passes (hs : Sane w h B c) (where_ : SeekAnchor) :
    ∃ s' o, Obmembuf.step w.buf (.tell where_) = .ok (o, s') ∧ Sane ⟨s', w.start⟩ h B c := by
  obtain ⟨s', htell, i', -, hpnext, -, hdirty, hwr, -⟩ := Obmembuf.tell_spec hs.inv where_
  have hok : ∃ o, Obmembuf.step w.buf (.tell where_) = .ok (o, s') := by
    rw [Obmembuf.step, htell]
    exact ⟨_, rfl⟩
  obtain ⟨o, hok⟩ := hok
  refine ⟨s', o, hok, i', fun hf => hs.free (hwr ▸ hf), ?_⟩
  exact hs.tidy.same (fun hd => hdirty ▸ hd) (fun _ hf => hwr.trans hf)
    (i'.base.trans hs.inv.base.symm) hpnext

theorem getBuffer_passes (hs : Sane w h B c) (forceCopy : Bool)
    (hcare : Careful w.buf (.getBuffer forceCopy)) :
    ∃ s' o B', Obmembuf.step w.buf (.getBuffer forceCopy) = .ok (o, s') ∧
      Sane ⟨s', w.start⟩ h B' c := by
  obtain ⟨s', B', hget, i', -, -, hcontent, -, -, hpnext, -, -, hfree⟩ :=
    Obmembuf.getBuffer_spec hs.inv forceCopy
  obtain ⟨hdirty, hflag⟩ := getBuffer_flags hget
  have hok : Obmembuf.step w.buf (.getBuffer forceCopy) =
      .ok (.bytes (c.take (Obmembuf.extent w.buf)), s') := by
    rw [Obmembuf.step, hget, ok_bind]
    simp only [hcontent, Obmembuf.defined_some, ok_bind]
    rfl
  refine ⟨s', _, B', hok, i', ?_, ?_⟩
  · intro hf
    obtain ⟨hwr, hB⟩ := hfree hf
    exact hB (hs.free hwr)
  · refine hs.tidy.same (fun hd => hdirty ▸ hd) ?_ (i'.base.trans hs.inv.base.symm) hpnext
    intro hd hf
    exact (hflag (hcare (hdirty ▸ hd))).trans hf

/-- Another handle leaves the block of the buffer as it is. -/
theorem drop_passes (hs : Sane w h B c) (slot : Nat) :
    ∃ s' B', Obmembuf.step w.buf (.drop slot) = .ok (.done, s') ∧ Sane ⟨s', w.start⟩ h B' c := by
  by_cases hslot : slot = w.buf.dev.buf
  · refine ⟨w.buf, B, ?_, hs⟩
    rw [Obmembuf.step, if_pos hslot]
    rfl
  · have i := hs.inv
    obtain ⟨B', o', -, -, -, ht, hone⟩ := i.owned.drop hslot
    refine ⟨Obmembuf.setHeap w.buf (unshare w.buf.dev.heap slot), B', ?_,
      ⟨o', i.base, i.pend, i.offset, i.next, i.mark, i.touched⟩, ?_,
      hs.tidy.same id (fun _ => id) rfl rfl⟩
    · rw [Obmembuf.step, if_neg hslot]
      rfl
    · intro hf
      rcases hs.free hf with hu | hp
      · exact .inl (hone hu)
      · exact .inr (ht.trans hp)

/-- A careful call passes its assertions, and does what it does without them. -/
theorem Sane.step (hs : Sane w h B c) (op : Op) (hcare : Careful w.buf op) :
    ∃ w' o h' B' c', w.step op = .ok w' ∧ Obmembuf.step w.buf op = .ok (o, w'.buf) ∧
      Sane w' h' B' c' := by
  have i := hs.inv
  cases op with
  | put byte =>
    obtain ⟨w', hput, hrelease, ht⟩ := put_passes i hs.free hs.tidy byte (hcare _ rfl).2
    obtain ⟨s', h', B', c', hspec, hwrote⟩ := Obmembuf.put_spec i hs.free byte
    obtain rfl := Except.ok.inj (hrelease.symm.trans hspec)
    refine ⟨w', .done, h', B', c', hput, ?_, .wrote ht hwrote⟩
    rw [Obmembuf.step, hrelease]
    rfl
  | putn src =>
    obtain ⟨hsrc, hroom⟩ := hcare _ rfl
    obtain ⟨w', hput, hrelease, ht⟩ := putn_passes i hs.free hs.tidy hsrc hroom
    obtain ⟨s', h', B', c', hspec, hwrote⟩ := Obmembuf.putn_spec i hs.free src
    obtain rfl := Except.ok.inj (hrelease.symm.trans hspec)
    refine ⟨w', .done, h', B', c', hput, ?_, .wrote ht hwrote⟩
    rw [Obmembuf.step, hrelease]
    rfl
  | filln byte n =>
    obtain ⟨hsrc, hroom⟩ := hcare _ rfl
    obtain ⟨w', hput, hrelease, ht⟩ := putn_passes i hs.free hs.tidy hsrc hroom
    obtain ⟨s', h', B', c', hspec, hwrote⟩ :=
      Obmembuf.putn_spec i hs.free (List.replicate n byte)
    obtain rfl := Except.ok.inj (hrelease.symm.trans hspec)
    refine ⟨w', .done, h', B', c', hput, ?_, .wrote ht hwrote⟩
    rw [Obmembuf.step, Obstreambuf.filln, hrelease]
    rfl
  | seek where_ offset =>
    obtain ⟨w', r, h', B', c', hseek, hrelease, hs'⟩ := seek_passes hs where_ offset
    rw [Obmembuf.step, hrelease, ok_bind]
    rcases r with _ | pos
    · exact ⟨w', .invalidArgument, h', B', c', hseek, rfl, hs'⟩
    · exact ⟨w', .position pos, h', B', c', hseek, rfl, hs'⟩
  | flush =>
    refine ⟨{ w with buf := Obmembuf.flushed w.buf }, .done, h, B, c, flush_eq i hs.tidy, ?_,
      i.flushed, hs.free, .of_clean rfl⟩
    rw [Obmembuf.step, Obmembuf.flush_eq i]
    rfl
  | tell where_ =>
    obtain ⟨s', o, hok, hs'⟩ := tell_passes hs where_
    exact ⟨⟨s', w.start⟩, o, h, B, c, on_step hok, hok, hs'⟩
  | getBuffer forceCopy =>
    obtain ⟨s', o, B', hok, hs'⟩ := getBuffer_passes hs forceCopy hcare
    exact ⟨⟨s', w.start⟩, o, h, B', c, on_step hok, hok, hs'⟩
  | clear =>
    obtain ⟨s', hclear, i', -, -, -, hclean, hwr⟩ := Obmembuf.clear_spec i
    have hok : Obmembuf.step w.buf .clear = .ok (.done, s') := by
      rw [Obmembuf.step, hclear]
      rfl
    exact ⟨⟨s', w.start⟩, _, h, B, c, on_step hok, hok, i', fun hf => hs.free (hwr ▸ hf),
      .of_clean hclean⟩
  | drop slot =>
    obtain ⟨s', B', hok, hs'⟩ := drop_passes hs slot
    exact ⟨⟨s', w.start⟩, .done, h, B', c, on_step hok, hok, hs'⟩

theorem Sane.run (hs : Sane w h B c) {ops : List Op} (hops : CarefulRun w.buf ops) :
    ∃ w' os, w.run ops = .ok w' ∧ Obmembuf.run w.buf ops = .ok (os, w'.buf) := by
  induction ops generalizing w h B c with
  | nil => exact ⟨w, [], rfl, rfl⟩
  | cons op ops ih =>
    obtain ⟨hop, hrest⟩ := hops
    obtain ⟨w₁, o, h₁, B₁, c₁, hstep, hrelease, hs₁⟩ := hs.step op hop
    rw [hrelease] at hrest
    obtain ⟨w', os, hrun, hreleases⟩ := ih hs₁ hrest
    refine ⟨w', o :: os, ?_, ?_⟩
    · rw [Watched.run, hstep]
      exact hrun
    · rw [Obmembuf.run, hrelease, ok_bind]
      show (Obmembuf.run w₁.buf ops >>= _) = _
      rw [hreleases]
      rfl

end

/-- From any capacity and under any policy, a run of careful calls fails no assertion, and ends as it
does without them. -/
theorem asserts_hold (junk : Nat → Nat → UInt8) (H : Heap) (hH : H.WF guarded) (size : Nat)
    (pol : Policy) (ops : List Op) :
    ∃ s, Obmembuf.ofCapacity junk H size pol = .ok s ∧
      (CarefulRun s ops → ∃ w os, run ⟨s, none⟩ ops = .ok w ∧
        Obmembuf.run s ops = .ok (os, w.buf)) := by
  obtain ⟨s, h, B, c, hinit, hshows⟩ := Obmembuf.shows_ofCapacity junk hH size pol
  refine ⟨s, hinit, fun hops => ?_⟩
  have hclean : s.dirty = false := by
    obtain ⟨_, -, hinit⟩ := Fallible.bind_eq_ok.mp hinit
    obtain rfl := Except.ok.inj hinit
    rfl
  have hs : Sane ⟨s, none⟩ h B c := ⟨hshows.inv, hshows.free, .of_clean hclean⟩
  exact hs.run hops

/-- From no capacity: writes, a buffer taken while nothing is unflushed, a gap, and a full buffer that is
written on at its end. -/
def carefulOps : List Op :=
  [.putn [1, 2, 3], .flush, .getBuffer false, .filln 7 13, .tell .end_, .flush, .putn [4, 5],
    .seek .end_ 3, .put 9, .putn [], .seek .begin 0, .put 8, .clear, .filln 1 2, .flush]

theorem asserts_hold_carefulOps :
    ∃ s, Obmembuf.ofCapacity (fun _ _ => 0) RefHeap.empty 0 .copyOnWrite = .ok s ∧
      ∃ w os, run ⟨s, none⟩ carefulOps = .ok w ∧ Obmembuf.run s carefulOps = .ok (os, w.buf) := by
  obtain ⟨s, hs, hrun⟩ :=
    asserts_hold (fun _ _ => 0) RefHeap.empty WF.empty 0 .copyOnWrite carefulOps
  have hall : ∃ s, Obmembuf.ofCapacity (fun _ _ => 0) RefHeap.empty 0 .copyOnWrite = .ok s ∧
      CarefulRun s carefulOps := by
    refine ⟨_, rfl, ?_⟩
    decide +kernel
  obtain ⟨s', hs', hcareful⟩ := hall
  obtain rfl := Except.ok.inj (hs.symm.trans hs')
  exact ⟨s, hs, hrun hcareful⟩

/-- What a run of checked calls from a capacity of 16 ends in. -/
def checkedEnd (ops : List Op) : Option Abort :=
  match Obmembuf.ofCapacity (fun _ _ => 0) RefHeap.empty 16 .copyOnWrite with
  | .error _ => none
  | .ok s =>
    match run ⟨s, none⟩ ops with
    | .ok _ => none
    | .error a => some a

/-- A flush after nothing was written, a write in front of the end of a full buffer, and a flush after
the buffer was shared. -/
theorem asserts_fail :
    checkedEnd [.putn [], .flush] = some .assertion ∧
      checkedEnd [.filln 1 16, .seek .begin 0, .put 1] = some .assertion ∧
      checkedEnd [.put 1, .getBuffer false, .flush] = some .assertion := by
  decide +kernel

end Watched

end Nodeoze.Bstream
