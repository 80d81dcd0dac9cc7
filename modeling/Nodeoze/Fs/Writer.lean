import Nodeoze.Buffer.Spec
import Nodeoze.Event.Writable

/-!
# Writing a file as a stream

An `fs_writer` is a writable stream with one request for libuv.  `really_write` gives libuv the address
of the buffer, a thread of its pool calls `write`, and the loop calls `on_write` later on, which settles
the promise of the write.  The buffer that `really_write` has is a copy that ends with the call, and
so do those of `start_write` and of its callers: unless the program has one too, the memory is freed by then.

The program has buffers of the default policy, copies them and lets them go, and does not write to
them.  No handler runs the loop.
-/

namespace Nodeoze.Fs.Writer

open RefHeap Splice Runs Buffer Event.Writable

/-- A buffer that was written to the stream, with what it showed then. -/
structure Copy where
  slot : Nat
  bytes : List UInt8
  deriving DecidableEq, Repr

/-- `m_write_req`: a write has been asked for, or it has been done and `on_write` is due; an error is `none`. -/
inductive Request
  | idle
  | queued (h : Handle)
  | done (result : Option Nat)
  deriving DecidableEq, Repr

def Request.queued? : Request → Option Handle
  | .queued h => some h
  | _ => none

def Request.isDone : Request → Bool
  | .done _ => true
  | _ => false

/-- `held` are the buffers of the program, `results` what `write` has returned, `output` what it has written.
After an error `failing` says that `on_write` is not over. -/
structure State where
  stream : Stream Copy
  heap : Heap
  request : Request
  held : List Nat
  results : List (Option Nat)
  output : List UInt8
  errors : Nat
  failing : Bool

inductive Act
  | make (bytes : List UInt8)
  | copy (i : Nat)
  | release (i : Nat)
  | write (i : Nat)
  | finishing
  | perform (n : Nat)
  | fail
  | callback
  | returns
  deriving DecidableEq, Repr

def start : State where
  stream := .create
  heap := RefHeap.empty
  request := .idle
  held := []
  results := []
  output := []
  errors := 0
  failing := false

/-- `really_write`, when it is what the stream calls; its buffer and those of its callers end. -/
def reallyWrite (s : State) : Option State :=
  match s.stream.stack with
  | .reallyWrite :: _ => do
    let b ← s.stream.called.getLast?
    let h ← s.heap.bufs b.slot
    if s.request = .idle then
      let t ← Event.Writable.step s.stream (.returns none)
      pure { s with stream := t, heap := s.heap.detach b.slot, request := .queued h }
    else none
  | _ => some s

/-- `write` with a copy of the buffer in slot `i`. -/
def write (s : State) (i : Nat) : Option State := do
  let bytes ← s.heap.content i
  let H ← adopt s.heap i
  let t ← Event.Writable.step s.stream (.write ⟨s.heap.slots, bytes⟩)
  reallyWrite { s with stream := t, heap := H }

/-- A thread has written the first `n` bytes. -/
def perform (s : State) (n : Nat) : Option State :=
  match s.request with
  | .queued h => do
    let bytes ← s.heap.read h.data h.size
    pure { s with request := .done (some n), results := s.results ++ [some n], output := s.output ++ bytes.take n }
  | _ => none

def fail (s : State) : Option State :=
  match s.request with
  | .queued _ => some { s with request := .done none, results := s.results ++ [none] }
  | _ => none

/-- `on_write`, up to a call of handlers. -/
def onWrite (s : State) : Option State :=
  match s.request with
  | .done (some 0) => some { s with request := .idle }
  | .done (some _) => do
    let t ← Event.Writable.step s.stream (.settle false)
    reallyWrite { s with stream := t, request := .idle }
  | .done none => do
    let t ← Event.Writable.step s.stream (.settle true)
    pure { s with stream := t, request := .idle, errors := s.errors + 1, failing := true }
  | _ => none

/-- The innermost handler returns; an error is emitted once more when the promise has been rejected. -/
def returns (s : State) : Option State := do
  let t ← Event.Writable.step s.stream (.returns none)
  let s ← reallyWrite { s with stream := t }
  if s.stream.stack = [] ∧ s.failing = true then pure { s with errors := s.errors + 1, failing := false } else pure s

def step (s : State) : Act → Option State
  | .make bytes => some { s with heap := construct s.heap bytes .copyOnWrite, held := s.held ++ [s.heap.slots] }
  | .copy i => do
    let H ← adopt s.heap i
    pure { s with heap := H, held := s.held ++ [s.heap.slots] }
  | .release i => some { s with heap := s.heap.detach i, held := s.held.filter (· ≠ i) }
  | .write i => write s i
  | .finishing => do
    let t ← Event.Writable.step s.stream .finishing
    pure { s with stream := t }
  | .perform n => perform s n
  | .fail => fail s
  | .callback => onWrite s
  | .returns => returns s

/-- What the kernel and libuv may do next, what returns, and that the program has the buffers that it uses.
Only of nothing `write` writes nothing. -/
def Enabled (s : State) : Act → Prop
  | .perform n => ∃ h ∈ s.request.queued?, n ≤ h.size ∧ (n = 0 → h.size = 0)
  | .fail => s.request.queued? ≠ none
  | .callback => s.request.isDone = true ∧ s.stream.stack = []
  | .returns => s.stream.stack ≠ []
  | .copy i => i ∈ s.held
  | .release i => i ∈ s.held
  | .write i => i ∈ s.held
  | .make _ => True
  | .finishing => True

/-- The memory of the handle is still to be written. -/
def Pending (s : State) (h : Handle) : Prop :=
  s.request = .queued h ∨ ∃ b ∈ s.stream.queue, s.heap.bufs b.slot = some h

/-- The program keeps what is still to be written. -/
def Keeps (s : State) : Act → Prop
  | .release i => ∀ h ∈ s.heap.bufs i, Pending s h → ∃ j ∈ s.held, j ≠ i ∧ s.heap.bufs j = some h
  | _ => True

def Allowed (s : State) (a : Act) : Prop := Enabled s a ∧ Keeps s a

instance (s : State) (h : Handle) : Decidable (Pending s h) :=
  inferInstanceAs (Decidable (s.request = .queued h ∨ ∃ b ∈ s.stream.queue, s.heap.bufs b.slot = some h))

instance (s : State) : ∀ a, Decidable (Enabled s a)
  | .perform n => inferInstanceAs (Decidable (∃ h ∈ s.request.queued?, n ≤ h.size ∧ (n = 0 → h.size = 0)))
  | .fail => inferInstanceAs (Decidable (s.request.queued? ≠ none))
  | .callback => inferInstanceAs (Decidable (s.request.isDone = true ∧ s.stream.stack = []))
  | .returns => inferInstanceAs (Decidable (s.stream.stack ≠ []))
  | .copy i => inferInstanceAs (Decidable (i ∈ s.held))
  | .release i => inferInstanceAs (Decidable (i ∈ s.held))
  | .write i => inferInstanceAs (Decidable (i ∈ s.held))
  | .make _ => isTrue trivial
  | .finishing => isTrue trivial

instance (s : State) : ∀ a, Decidable (Keeps s a)
  | .release i => inferInstanceAs (Decidable (∀ h ∈ s.heap.bufs i, Pending s h →
      ∃ j ∈ s.held, j ≠ i ∧ s.heap.bufs j = some h))
  | .make _ | .copy _ | .write _ | .finishing | .perform _ | .fail | .callback | .returns => isTrue trivial

instance (s : State) (a : Act) : Decidable (Allowed s a) := inferInstanceAs (Decidable (Enabled s a ∧ Keeps s a))

/-! ## The buffers -/

/-- The program has the memory of the handle, and it shows `bytes`. -/
def Has (H : Heap) (held : List Nat) (h : Handle) (bytes : List UInt8) : Prop :=
  ∃ j ∈ held, H.bufs j = some h ∧ H.content j = some bytes

/-- The buffers of the program, and those that wait: the program has the memory of each of them. -/
structure Buffers (H : Heap) (held : List Nat) (queue : List Copy) : Prop where
  wf : H.WF fun _ => True
  tags : ∀ b B, H.blks b = some B → B.tag = .copyOnWrite
  present : ∀ j ∈ held, ∃ h, H.bufs j = some h
  apart : ∀ b ∈ queue, b.slot ∉ held
  nodup : (queue.map Copy.slot).Nodup
  waiting : ∀ b ∈ queue, ∃ h, H.bufs b.slot = some h ∧ Has H held h b.bytes

section

variable {H H' : Heap} {held : List Nat} {queue : List Copy} {i : Nat} {h : Handle} {bytes : List UInt8}

theorem Has.frame (hhas : Has H held h bytes) (hf : Frame i H H') (hi : i ∉ held) : Has H' held h bytes := by
  obtain ⟨j, hj, hbuf, hcontent⟩ := hhas
  have hne : j ≠ i := fun heq => hi (heq ▸ hj)
  exact ⟨j, hj, by rw [hf.bufs j hne, hbuf], by rw [hf.content j hne, hcontent]⟩

theorem Has.mono {held' : List Nat} (hhas : Has H held h bytes) (hsub : held ⊆ held') : Has H held' h bytes := by
  obtain ⟨j, hj, hshows⟩ := hhas
  exact ⟨j, hsub hj, hshows⟩

theorem Has.read (hhas : Has H held h bytes) : H.read h.data h.size = some bytes := by
  obtain ⟨j, -, hbuf, hcontent⟩ := hhas
  unfold RefHeap.content at hcontent
  rwa [hbuf] at hcontent

theorem Buffers.shows (hb : Buffers H held queue) (hi : i ∈ held) :
    ∃ h bytes, H.bufs i = some h ∧ H.content i = some bytes := by
  obtain ⟨h, hbuf⟩ := hb.present i hi
  obtain ⟨B, hB, hin⟩ := hb.wf.live i h hbuf
  obtain ⟨off, hread, -⟩ := read_within hB (hin trivial)
  refine ⟨h, (B.mem.drop off).take h.size, hbuf, ?_⟩
  unfold RefHeap.content
  rw [hbuf]
  exact hread

/-- A step in a slot that is not in use. -/
theorem Buffers.frame (hb : Buffers H held queue) (hwf : H'.WF fun _ => True)
    (htags : ∀ b B, H'.blks b = some B → B.tag = .copyOnWrite) (hf : Frame i H H') (hi : i ∉ held)
    (hqueue : ∀ b ∈ queue, b.slot ≠ i) : Buffers H' held queue where
  wf := hwf
  tags := htags
  present j hj := by
    obtain ⟨h, hbuf⟩ := hb.present j hj
    exact ⟨h, by rw [hf.bufs j fun heq => hi (heq ▸ hj), hbuf]⟩
  apart := hb.apart
  nodup := hb.nodup
  waiting b hmem := by
    obtain ⟨h, hbuf, hhas⟩ := hb.waiting b hmem
    exact ⟨h, by rw [hf.bufs _ (hqueue b hmem), hbuf], hhas.frame hf hi⟩

theorem Buffers.held_lt (hb : Buffers H held queue) (hi : i ∈ held) : i < H.slots := by
  obtain ⟨h, hbuf⟩ := hb.present i hi
  exact hb.wf.lt_slots hbuf

theorem Buffers.queue_lt (hb : Buffers H held queue) {b : Copy} (hmem : b ∈ queue) : b.slot < H.slots := by
  obtain ⟨h, hbuf, -⟩ := hb.waiting b hmem
  exact hb.wf.lt_slots hbuf

/-- A step in the next slot. -/
theorem Buffers.grow (hb : Buffers H held queue) (hwf : H'.WF fun _ => True)
    (htags : ∀ b B, H'.blks b = some B → B.tag = .copyOnWrite) (hf : Frame H.slots H H') : Buffers H' held queue := by
  apply hb.frame hwf htags hf
  · intro hmem
    have := hb.held_lt hmem
    omega
  · intro b hmem
    have := hb.queue_lt hmem
    omega

/-- The program gets the buffer in the slot. -/
theorem Buffers.hold (hb : Buffers H held queue) (hbuf : H.bufs i = some h) (hqueue : ∀ b ∈ queue, b.slot ≠ i) :
    Buffers H (held ++ [i]) queue where
  wf := hb.wf
  tags := hb.tags
  present j hj := by
    rcases List.mem_append.mp hj with hj | hj
    · exact hb.present j hj
    · rw [List.mem_singleton.mp hj]
      exact ⟨h, hbuf⟩
  apart b hmem := by
    rw [List.mem_append, not_or]
    exact ⟨hb.apart b hmem, fun heq => hqueue b hmem (List.mem_singleton.mp heq)⟩
  nodup := hb.nodup
  waiting b hmem := by
    obtain ⟨k, hk, hhas⟩ := hb.waiting b hmem
    exact ⟨k, hk, hhas.mono (List.subset_append_left _ _)⟩

/-- The buffer in the slot joins the queue. -/
theorem Buffers.wait (hb : Buffers H held queue) (hbuf : H.bufs i = some h) (hhas : Has H held h bytes)
    (hi : i ∉ held) (hqueue : ∀ b ∈ queue, b.slot ≠ i) : Buffers H held (queue ++ [⟨i, bytes⟩]) where
  wf := hb.wf
  tags := hb.tags
  present := hb.present
  apart b hmem := by
    rcases List.mem_append.mp hmem with hmem | hmem
    · exact hb.apart b hmem
    · rw [List.mem_singleton.mp hmem]
      exact hi
  nodup := by
    rw [List.map_append, List.map_singleton, List.nodup_append]
    refine ⟨hb.nodup, List.nodup_singleton _, ?_⟩
    intro j hj k hk
    obtain ⟨b, hmem, rfl⟩ := List.mem_map.mp hj
    rw [List.mem_singleton.mp hk]
    exact hqueue b hmem
  waiting b hmem := by
    rcases List.mem_append.mp hmem with hmem | hmem
    · exact hb.waiting b hmem
    · rw [List.mem_singleton.mp hmem]
      exact ⟨h, hbuf, hhas⟩

theorem tags_detach (htags : ∀ b B, H.blks b = some B → B.tag = .copyOnWrite) (hbuf : H.bufs i = some h) :
    ∀ b B, (H.detach i).blks b = some B → B.tag = .copyOnWrite := by
  intro b B hB
  rw [detach_eq hbuf] at hB
  change (H.release h.blk).blks b = some B at hB
  by_cases hne : b = h.blk
  · subst hne
    cases hold : H.blks h.blk with
    | none =>
      unfold RefHeap.release at hB
      rw [hold] at hB
      exact absurd (hold.symm.trans hB) (by simp)
    | some C =>
      rw [release_blks_self hold] at hB
      split_ifs at hB
      rw [← Option.some.inj hB]
      exact htags _ C hold
  · rw [release_blks_ne hne] at hB
    exact htags b B hB

/-- The first buffer that waits is handed on, and ends. -/
theorem Buffers.pop {b : Copy} (hb : Buffers H held (b :: queue)) :
    ∃ h, H.bufs b.slot = some h ∧ Buffers (H.detach b.slot) held queue ∧ Has (H.detach b.slot) held h b.bytes := by
  obtain ⟨h, hbuf, hhas⟩ := hb.waiting b List.mem_cons_self
  have hf := hb.wf.frame_detach hbuf
  have hapart := hb.apart b List.mem_cons_self
  have hnodup := hb.nodup
  rw [List.map_cons, List.nodup_cons] at hnodup
  have htail : Buffers H held queue :=
    { hb with
      apart := fun c hmem => hb.apart c (List.mem_cons_of_mem _ hmem)
      nodup := hnodup.2
      waiting := fun c hmem => hb.waiting c (List.mem_cons_of_mem _ hmem) }
  refine ⟨h, hbuf, htail.frame (hb.wf.detach hbuf) (tags_detach hb.tags hbuf) hf hapart ?_, hhas.frame hf hapart⟩
  exact fun c hmem heq => hnodup.1 (heq ▸ List.mem_map_of_mem hmem)

theorem Buffers.make (hb : Buffers H held queue) (bytes : List UInt8) :
    Buffers (construct H bytes .copyOnWrite) (held ++ [H.slots]) queue ∧
      Frame H.slots H (construct H bytes .copyOnWrite) := by
  have hf : Frame H.slots H (construct H bytes .copyOnWrite) := by
    obtain ⟨-, hbufs, hcontent⟩ := hb.wf.push.frame_attach (i := H.slots) bytes .copyOnWrite
    exact ⟨Nat.le_succ _, hbufs, hcontent⟩
  have hwf : (construct H bytes .copyOnWrite).WF fun _ => True :=
    hb.wf.push.attach (Nat.lt_succ_self _) (hb.wf.absent _ (Nat.le_refl _)) bytes .copyOnWrite
  refine ⟨(hb.grow hwf ?_ hf).hold (attach_bufs bytes .copyOnWrite) ?_, hf⟩
  · intro b B hB
    by_cases hne : b = H.next
    · subst hne
      rw [← Option.some.inj ((attach_blks (H := H.push) (i := H.slots) bytes .copyOnWrite).symm.trans hB)]
    · exact hb.tags b B ((attach_blks_ne (H := H.push) (i := H.slots) bytes .copyOnWrite hne).symm.trans hB)
  · intro b hmem
    have := hb.queue_lt hmem
    omega

/-- A copy shows what the buffer does. -/
theorem Buffers.adopt (hb : Buffers H held queue) (hi : i ∈ held) :
    ∃ H' h bytes, adopt H i = some H' ∧ H.content i = some bytes ∧ Buffers H' held queue ∧ Frame H.slots H H' ∧
      H'.bufs H.slots = some h ∧ Has H' held h bytes := by
  obtain ⟨h, bytes, hbuf, hcontent⟩ := hb.shows hi
  obtain ⟨B, hB, hin⟩ := hb.wf.live i h hbuf
  have htag := hb.tags h.blk B hB
  have hown := fun p => hb.wf.own i h p hbuf
  have hf : Frame H.slots H (H.push.share H.slots h) := by
    obtain ⟨-, hbufs, hcontents⟩ := hb.wf.push.frame_share (i := H.slots) hB
    refine ⟨?_, hbufs, hcontents⟩
    rw [share_eq (H := H.push) hB]
    exact Nat.le_succ _
  have hlt := hb.held_lt hi
  refine ⟨H.push.share H.slots h, h, bytes, ?_, hcontent, hb.grow ?_ ?_ hf, hf, share_bufs (H := H.push) hB, i, hi,
    ?_, ?_⟩
  · unfold Buffer.adopt
    simp only [hbuf, hB, Option.bind_eq_bind, Option.bind_some, htag]
    rfl
  · exact hb.wf.push.share (Nat.lt_succ_self _) (hb.wf.absent _ (Nat.le_refl _)) hB hown hin
  · intro b C hC
    cases hold : H.blks b with
    | none =>
      have hne : b ≠ h.blk := by
        rintro rfl
        exact absurd (hold.symm.trans hB) (by simp)
      rw [share_blks_ne (H := H.push) hB hne] at hC
      exact absurd (hold.symm.trans hC) (by simp)
    | some C' =>
      obtain ⟨C'', hC'', -, -, ht⟩ := share_blks (H := H.push) (i := H.slots) hB hold
      rw [← Option.some.inj (hC''.symm.trans hC), ht]
      exact hb.tags b C' hold
  · rw [hf.bufs i (by omega), hbuf]
  · rw [hf.content i (by omega), hcontent]

/-- The program lets a buffer go, and has another one of the memory. -/
theorem Has.release (hhas : Has H held h bytes) (hf : Frame i H (H.detach i))
    (hkeeps : H.bufs i = some h → ∃ j ∈ held, j ≠ i ∧ H.bufs j = some h) :
    Has (H.detach i) (held.filter (· ≠ i)) h bytes := by
  obtain ⟨j, hj, hne, hbuf⟩ : ∃ j ∈ held, j ≠ i ∧ H.bufs j = some h := by
    obtain ⟨j, hj, hbuf, -⟩ := hhas
    by_cases hji : j = i
    · exact hkeeps (hji ▸ hbuf)
    · exact ⟨j, hj, hji, hbuf⟩
  refine ⟨j, List.mem_filter.mpr ⟨hj, decide_eq_true hne⟩, by rw [hf.bufs j hne, hbuf], ?_⟩
  rw [hf.content j hne]
  unfold RefHeap.content
  rw [hbuf]
  exact hhas.read

theorem Buffers.release (hb : Buffers H held queue) (hi : i ∈ held)
    (hkeeps : ∀ b ∈ queue, ∀ h, H.bufs b.slot = some h → H.bufs i = some h → ∃ j ∈ held, j ≠ i ∧ H.bufs j = some h) :
    Buffers (H.detach i) (held.filter (· ≠ i)) queue ∧ Frame i H (H.detach i) := by
  obtain ⟨k, hbuf⟩ := hb.present i hi
  have hf := hb.wf.frame_detach hbuf
  have hmem : ∀ j ∈ held.filter (· ≠ i), j ∈ held ∧ j ≠ i := by
    intro j hj
    rwa [List.mem_filter, decide_eq_true_eq] at hj
  refine ⟨⟨hb.wf.detach hbuf, tags_detach hb.tags hbuf, ?_, ?_, hb.nodup, ?_⟩, hf⟩
  · intro j hj
    obtain ⟨h, hh⟩ := hb.present j (hmem j hj).1
    exact ⟨h, by rw [hf.bufs j (hmem j hj).2, hh]⟩
  · exact fun b hb' hslot => hb.apart b hb' (hmem _ hslot).1
  · intro b hb'
    obtain ⟨h, hh, hhas⟩ := hb.waiting b hb'
    refine ⟨h, ?_, hhas.release hf (hkeeps b hb' h hh)⟩
    have hne : b.slot ≠ i := fun heq => hb.apart b hb' (heq ▸ hi)
    rw [hf.bufs _ hne, hh]

end

/-! ## The writer -/

/-- What a write puts out of the buffer: `write` may stop in the middle of it. -/
def taken (b : Copy) (r : Option Nat) : List UInt8 := b.bytes.take (r.getD 0)

/-- Where the request is.  A write of nothing leaves its promise as it is. -/
inductive Control (H : Heap) (held : List Nat) (called : List Copy) (results : Nat) : Nat → Request → Prop
  | idle : results = called.length → Control H held called results 0 .idle
  | queued {h : Handle} {b : Copy} {before : List Copy} : called = before ++ [b] → results = before.length →
      Has H held h b.bytes → Control H held called results 1 (.queued h)
  | done {r : Option Nat} : results = called.length → (r = some 0 → ∃ b ∈ called.getLast?, b.bytes = []) →
      Control H held called results 1 (.done r)
  | stalled : results = called.length → (∃ b ∈ called.getLast?, b.bytes = []) → Control H held called results 1 .idle

/-- How often an error is still to be emitted. -/
def untold (r : Request) (failing : Bool) : Nat := (if r = .done none then 2 else 0) + if failing then 1 else 0

structure Inv (s : State) : Prop where
  buffers : Buffers s.heap s.held s.stream.queue
  stream : Event.Writable.Inv s.stream
  quiet : .reallyWrite ∉ s.stream.stack
  control : Control s.heap s.held s.stream.called s.results.length s.stream.unsettled s.request
  output : s.output = (List.zipWith taken s.stream.called s.results).flatten
  errors : s.errors + untold s.request s.failing = 2 * s.results.count none

/-- A write is over, and the stream goes on. -/
structure Over (s : State) : Prop where
  buffers : Buffers s.heap s.held s.stream.queue
  order : s.stream.written = s.stream.called ++ s.stream.queue
  free : s.stream.stack.countP Frame.busy + s.stream.unsettled = 0
  idle : s.request = .idle
  results : s.results.length = s.stream.called.length
  output : s.output = (List.zipWith taken s.stream.called s.results).flatten
  errors : s.errors + untold .idle s.failing = 2 * s.results.count none

/-- The handlers that are running will come back to an error that is not told yet. -/
def Told (s : State) : Prop := s.failing = true → s.stream.stack ≠ []

section

variable {s t u : State} {as : List Act}

theorem reallyWrite_of_quiet (h : Frame.reallyWrite ∉ s.stream.stack) : reallyWrite s = some s := by
  unfold reallyWrite
  split
  · rename_i heq
    exact absurd (heq ▸ List.mem_cons_self) h
  · rfl

/-- The next buffer is handed on, if one waits. -/
theorem Over.next (h : Over s) : ∃ u, reallyWrite { s with stream := s.stream.next } = some u ∧ Inv u ∧
    u.failing = s.failing ∧ (s.stream.stack ≠ [] → u.stream.stack ≠ []) := by
  have hfree := h.free
  have hquiet : Frame.reallyWrite ∉ s.stream.stack := quiet_of_free (by omega)
  have hstream : Event.Writable.Inv s.stream.next := inv_next h.order h.free
  cases hqueue : s.stream.queue with
  | nil =>
    have hnext := Stream.next_of_nil hqueue
    have hquiet' : Frame.reallyWrite ∉ Frame.drain :: s.stream.stack := by
      rw [List.mem_cons, not_or]
      exact ⟨by decide, hquiet⟩
    rw [hnext] at hstream ⊢
    refine ⟨_, reallyWrite_of_quiet hquiet', ⟨h.buffers, hstream, hquiet', ?_, h.output, ?_⟩, rfl, fun _ => by simp⟩
    · have hunsettled : s.stream.unsettled = 0 := by omega
      change Control _ _ _ _ s.stream.unsettled s.request
      rw [hunsettled, h.idle]
      exact .idle h.results
    · rw [h.idle]
      exact h.errors
  | cons b queue =>
    have hnext := Stream.next_of_cons hqueue
    have hbuffers := h.buffers
    rw [hqueue] at hbuffers
    obtain ⟨k, hbuf, hpop, hhas⟩ := hbuffers.pop
    have hreturns : Event.Writable.step s.stream.next (.returns none)
        = some { s.stream.next with stack := s.stream.stack, unsettled := s.stream.unsettled + 1 } := by
      rw [hnext]
      rfl
    have hstream' := inv_step _ _ _ hstream hreturns
    have hunsettled : s.stream.unsettled + 1 = 1 := by omega
    refine ⟨{ s with
      stream := { s.stream.next with stack := s.stream.stack, unsettled := s.stream.unsettled + 1 }
      heap := s.heap.detach b.slot
      request := .queued k }, ?_, ⟨?_, hstream', hquiet, ?_, ?_, h.errors⟩, rfl, id⟩
    · rw [hnext] at hreturns ⊢
      unfold reallyWrite
      simp only [List.getLast?_append, List.getLast?_singleton, Option.some_or, hbuf, h.idle, hreturns,
        Option.bind_eq_bind, Option.bind_some]
      rfl
    · rw [hnext]
      exact hpop
    · rw [hnext]
      change Control _ _ (s.stream.called ++ [b]) _ (s.stream.unsettled + 1) _
      rw [hunsettled]
      exact .queued rfl h.results hhas
    · rw [hnext]
      change s.output = (List.zipWith taken (s.stream.called ++ [b]) s.results).flatten
      rw [zipWith_append_left taken h.results.le, h.output]

/-! ## Acts -/

theorem Control.map {H H' : Heap} {held held' : List Nat} {called : List Copy} {results unsettled : Nat} {r : Request}
    (h : Control H held called results unsettled r)
    (hmap : ∀ k bytes, r = .queued k → Has H held k bytes → Has H' held' k bytes) :
    Control H' held' called results unsettled r := by
  cases h with
  | idle hlen => exact .idle hlen
  | queued hcalled hlen hhas => exact .queued hcalled hlen (hmap _ _ rfl hhas)
  | done hlen hempty => exact .done hlen hempty
  | stalled hlen hempty => exact .stalled hlen hempty

theorem Control.of_settled {H : Heap} {held : List Nat} {called : List Copy} {results : Nat} {r : Request}
    (h : Control H held called results 0 r) : r = .idle ∧ results = called.length := by
  cases h with
  | idle hlen => exact ⟨rfl, hlen⟩

/-- What an act does. -/
def Does (s : State) (a : Act) : Prop := ∃ t, step s a = some t ∧ Inv t ∧ Told t

/-- The program's buffers change. -/
theorem Inv.rebuffer (h : Inv s) {H : Heap} {held : List Nat} (hbuffers : Buffers H held s.stream.queue)
    (hmap : ∀ k bytes, s.request = .queued k → Has s.heap s.held k bytes → Has H held k bytes) :
    Inv { s with heap := H, held := held } :=
  { h with
    buffers := hbuffers
    control := h.control.map hmap }

theorem Inv.slots_fresh (h : Inv s) : s.heap.slots ∉ s.held ∧ ∀ b ∈ s.stream.queue, b.slot ≠ s.heap.slots := by
  constructor
  · intro hmem
    have := h.buffers.held_lt hmem
    omega
  · intro b hmem
    have := h.buffers.queue_lt hmem
    omega

theorem Inv.make (h : Inv s) (htold : Told s) (bytes : List UInt8) : Does s (.make bytes) := by
  obtain ⟨hbuffers, hf⟩ := h.buffers.make bytes
  refine ⟨_, rfl, h.rebuffer hbuffers fun k bytes' _ hhas => ?_, htold⟩
  exact (hhas.frame hf h.slots_fresh.1).mono (List.subset_append_left _ _)

theorem Inv.copy (h : Inv s) (htold : Told s) {i : Nat} (hi : i ∈ s.held) : Does s (.copy i) := by
  obtain ⟨H, k, bytes, hH, -, hbuffers, hf, hslot, -⟩ := h.buffers.adopt hi
  obtain ⟨hheld, hqueue⟩ := h.slots_fresh
  refine ⟨{ s with heap := H, held := s.held ++ [s.heap.slots] }, ?_, h.rebuffer (hbuffers.hold hslot hqueue) ?_, htold⟩
  · simp only [step, hH, Option.bind_eq_bind, Option.bind_some]
    rfl
  · exact fun k bytes' _ hhas => (hhas.frame hf hheld).mono (List.subset_append_left _ _)

theorem Inv.release (h : Inv s) (htold : Told s) {i : Nat} (hi : i ∈ s.held) (hkeeps : Keeps s (.release i)) :
    Does s (.release i) := by
  obtain ⟨hbuffers, hf⟩ := h.buffers.release hi fun b hmem k hb hbuf => hkeeps k hbuf (.inr ⟨b, hmem, hb⟩)
  refine ⟨_, rfl, h.rebuffer hbuffers fun k bytes hqueued hhas => ?_, htold⟩
  exact hhas.release hf fun hbuf => hkeeps k hbuf (.inl hqueued)

theorem Inv.write (h : Inv s) (htold : Told s) {i : Nat} (hi : i ∈ s.held) : Does s (.write i) := by
  obtain ⟨H, k, bytes, hH, hcontent, hbuffers, hf, hslot, hhas⟩ := h.buffers.adopt hi
  obtain ⟨hheld, hqueue⟩ := h.slots_fresh
  have hwaits := hbuffers.wait hslot hhas hheld hqueue
  have hstep : ∀ t, Event.Writable.step s.stream (.write ⟨s.heap.slots, bytes⟩) = some t →
      Writer.step s (.write i) = reallyWrite { s with stream := t, heap := H } := by
    intro t ht
    simp only [Writer.step, Writer.write, hcontent, hH, ht, Option.bind_eq_bind, Option.bind_some]
  cases hwriting : s.stream.writing with
  | true =>
    have hwrite : Event.Writable.step s.stream (.write ⟨s.heap.slots, bytes⟩) = some { s.stream with
        written := s.stream.written ++ [⟨s.heap.slots, bytes⟩]
        queue := s.stream.queue ++ [⟨s.heap.slots, bytes⟩] } := by
      simp [Event.Writable.step, Stream.write, hwriting]
    refine ⟨_, (hstep _ hwrite).trans (reallyWrite_of_quiet h.quiet), ?_, htold⟩
    exact
      { h with
        buffers := hwaits
        stream := inv_step _ _ _ h.stream hwrite
        control := h.control.map fun _ _ _ hhas => hhas.frame hf hheld }
  | false =>
    have hbusy := h.stream.busy
    rw [hwriting, if_neg (by decide)] at hbusy
    have hnone := h.stream.idle hwriting
    have hcontrol := h.control
    rw [show s.stream.unsettled = 0 by omega] at hcontrol
    obtain ⟨hidle, hlen⟩ := hcontrol.of_settled
    have hover : Over { s with
        stream := { s.stream with
          written := s.stream.written ++ [⟨s.heap.slots, bytes⟩]
          queue := [⟨s.heap.slots, bytes⟩] }
        heap := H } := by
      refine ⟨?_, ?_, hbusy, hidle, hlen, h.output, hidle ▸ h.errors⟩
      · rwa [hnone] at hwaits
      · change s.stream.written ++ _ = s.stream.called ++ _
        rw [h.stream.order, hnone, List.append_nil]
    obtain ⟨u, hu, hinv, hfailing, hstack⟩ := hover.next
    refine ⟨u, (hstep _ ?_).trans hu, hinv, fun hf => hstack (htold (hfailing ▸ hf))⟩
    simp [Event.Writable.step, Stream.write, Stream.next, Stream.startWrite, hwriting, hnone]

theorem Inv.finishing (h : Inv s) (htold : Told s) : Does s .finishing := by
  have hstream := inv_finishing h.stream
  cases hwriting : s.stream.writing with
  | true =>
    have hend := Stream.finishing_of_writing hwriting
    refine ⟨{ s with stream := { s.stream with ended := true } }, ?_, ?_, htold⟩
    · rw [← hend]
      rfl
    · exact { h with stream := hend ▸ hstream }
  | false =>
    have hend := Stream.finishing_of_idle hwriting
    refine ⟨{ s with stream := { s.stream with ended := true, stack := .finish :: s.stream.stack } }, ?_, ?_, ?_⟩
    · rw [← hend]
      rfl
    · refine { h with stream := hend ▸ hstream, quiet := ?_ }
      rw [List.mem_cons, not_or]
      exact ⟨by decide, h.quiet⟩
    · exact fun _ => List.cons_ne_nil _ _

theorem Control.results_le {H : Heap} {held : List Nat} {called : List Copy} {results unsettled : Nat} {r : Request}
    (h : Control H held called results unsettled r) : results ≤ called.length := by
  cases h with
  | queued hcalled hlen =>
    rw [hcalled, List.length_append]
    omega
  | idle hlen => omega
  | done hlen => omega
  | stalled hlen => omega

theorem Control.of_unsettled {H : Heap} {held : List Nat} {called : List Copy} {results : Nat}
    (h : Control H held called results 1 .idle) : ∃ b ∈ called.getLast?, b.bytes = [] := by
  cases h with
  | stalled _ hempty => exact hempty

theorem Control.of_queued {H : Heap} {held : List Nat} {called : List Copy} {results unsettled : Nat} {k : Handle}
    (h : Control H held called results unsettled (.queued k)) :
    ∃ b before, called = before ++ [b] ∧ results = before.length ∧ unsettled = 1 ∧ Has H held k b.bytes := by
  cases h with
  | queued hcalled hlen hhas => exact ⟨_, _, hcalled, hlen, rfl, hhas⟩

theorem Control.of_done {H : Heap} {held : List Nat} {called : List Copy} {results unsettled : Nat} {r : Option Nat}
    (h : Control H held called results unsettled (.done r)) :
    unsettled = 1 ∧ results = called.length ∧ (r = some 0 → ∃ b ∈ called.getLast?, b.bytes = []) := by
  cases h with
  | done hlen hempty => exact ⟨rfl, hlen, hempty⟩

theorem Request.of_queued? {r : Request} {k : Handle} (h : k ∈ r.queued?) : r = .queued k := by
  cases r with
  | idle => contradiction
  | queued k' => rw [Option.some.inj h]
  | done _ => contradiction

/-- The kernel is done with the write, and has put out what it took of it. -/
theorem Inv.ends (h : Inv s) {k : Handle} (hqueued : s.request = .queued k) {b : Copy} {before : List Copy}
    (hcalled : s.stream.called = before ++ [b]) (r : Option Nat) (hempty : r = some 0 → b.bytes = []) :
    Inv { s with request := .done r, results := s.results ++ [r], output := s.output ++ taken b r } := by
  have hcontrol := h.control
  rw [hqueued] at hcontrol
  obtain ⟨b', before', hcalled', hlen, hunsettled, -⟩ := hcontrol.of_queued
  obtain ⟨rfl, heq⟩ := List.append_inj' (hcalled.symm.trans hcalled') rfl
  obtain rfl := List.singleton_inj.mp heq
  refine { h with control := ?_, output := ?_, errors := ?_ }
  · change Control _ _ _ (s.results ++ [r]).length s.stream.unsettled (.done r)
    rw [hunsettled]
    refine .done ?_ fun hr => ⟨b, ?_, hempty hr⟩
    · rw [hcalled, List.length_append, List.length_append, List.length_singleton, List.length_singleton, hlen]
    · rw [hcalled, List.getLast?_append, List.getLast?_singleton]
      rfl
  · change s.output ++ taken b r = (List.zipWith taken s.stream.called (s.results ++ [r])).flatten
    rw [h.output, hcalled, List.zipWith_append hlen.symm, List.flatten_append, zipWith_append_left taken hlen.le]
    simp
  · change s.errors + untold (.done r) s.failing = 2 * (s.results ++ [r]).count none
    have herrors := h.errors
    rw [hqueued] at herrors
    cases r with
    | none =>
      simp only [untold, List.count_append, List.count_singleton_self, if_true] at herrors ⊢
      simp only [reduceCtorEq, if_false] at herrors
      omega
    | some n =>
      simp only [untold, List.count_append, Request.done.injEq, reduceCtorEq, if_false] at herrors ⊢
      simpa using herrors

theorem Inv.perform (h : Inv s) (htold : Told s) {n : Nat} (henabled : Enabled s (.perform n)) :
    Does s (.perform n) := by
  obtain ⟨k, hk, -, hzero⟩ := henabled
  have hqueued := Request.of_queued? hk
  have hcontrol := h.control
  rw [hqueued] at hcontrol
  obtain ⟨b, before, hcalled, -, -, hhas⟩ := hcontrol.of_queued
  have hread := hhas.read
  refine ⟨_, ?_, h.ends hqueued hcalled (some n) fun hr => ?_, htold⟩
  · simp only [step, Writer.perform, hqueued, hread, Option.bind_eq_bind, Option.bind_some]
    rfl
  · rw [hzero (Option.some.inj hr)] at hread
    exact (Option.some.inj hread).symm

theorem Inv.fail (h : Inv s) (htold : Told s) (henabled : Enabled s .fail) : Does s .fail := by
  obtain ⟨k, hk⟩ := Option.ne_none_iff_exists'.mp henabled
  have hqueued := Request.of_queued? hk
  have hcontrol := h.control
  rw [hqueued] at hcontrol
  obtain ⟨b, before, hcalled, -⟩ := hcontrol.of_queued
  have hends := h.ends hqueued hcalled none fun hr => nomatch hr
  refine ⟨_, ?_, hends, htold⟩
  simp only [step, Writer.fail, hqueued]
  simp [taken]

theorem Inv.callback (h : Inv s) (htold : Told s) (henabled : Enabled s .callback) : Does s .callback := by
  obtain ⟨hdone, hstack⟩ := henabled
  have hfailing : s.failing = false := by
    by_contra hf
    exact htold (Bool.not_eq_false _ ▸ hf) hstack
  cases hr : s.request with
  | idle =>
    rw [hr] at hdone
    contradiction
  | queued k =>
    rw [hr] at hdone
    contradiction
  | done r =>
    have hcontrol := h.control
    have herrors := h.errors
    rw [hr] at hcontrol herrors
    obtain ⟨hunsettled, hlen, hempty⟩ := hcontrol.of_done
    cases r with
    | none =>
      have hsettle : Event.Writable.step s.stream (.settle true)
          = some { s.stream with unsettled := 0, stack := [.error] } := by
        simp [Event.Writable.step, Stream.settled, hunsettled, hstack]
      refine ⟨{ s with
        stream := { s.stream with unsettled := 0, stack := [.error] }
        request := .idle
        errors := s.errors + 1
        failing := true }, ?_, ?_, fun _ => List.cons_ne_nil _ _⟩
      · simp only [step, onWrite, hr, hsettle, Option.bind_eq_bind, Option.bind_some]
        rfl
      · refine ⟨h.buffers, inv_step _ _ _ h.stream hsettle, (by decide : Frame.reallyWrite ∉ [.error]), .idle hlen,
          h.output, ?_⟩
        rw [hfailing] at herrors
        change s.errors + 1 + untold .idle true = 2 * s.results.count none
        simp only [untold, reduceCtorEq, if_true, if_false] at herrors ⊢
        omega
    | some n =>
      have hsame : untold (.done (some n)) s.failing = untold .idle s.failing := by
        simp [untold]
      rw [hsame] at herrors
      cases n with
      | zero =>
        refine ⟨{ s with request := .idle }, ?_, ?_, htold⟩
        · simp only [step, onWrite, hr]
        · refine { h with control := ?_, errors := herrors }
          change Control _ _ _ _ s.stream.unsettled .idle
          rw [hunsettled]
          exact .stalled hlen (hempty rfl)
      | succ n =>
        have hsettle : Event.Writable.step s.stream (.settle false)
            = some ({ s.stream with unsettled := 0 } : Stream Copy).next := by
          simp [Event.Writable.step, Stream.settled, hunsettled]
        have hover : Over { s with stream := { s.stream with unsettled := 0 }, request := .idle } := by
          refine ⟨h.buffers, h.stream.order, ?_, rfl, hlen, h.output, herrors⟩
          change s.stream.stack.countP Frame.busy + 0 = 0
          rw [hstack]
          rfl
        obtain ⟨u, hu, hinv, hfailing', -⟩ := hover.next
        refine ⟨u, ?_, hinv, fun hf => ?_⟩
        · simp only [step, onWrite, hr, hsettle, Option.bind_eq_bind, Option.bind_some]
          exact hu
        · rw [hfailing'] at hf
          exact absurd (hf.symm.trans hfailing) (by decide)

/-- When the handlers are over the error is emitted once more. -/
theorem Inv.tells (h : Inv s) : ∃ t, (if s.stream.stack = [] ∧ s.failing = true then
    some { s with errors := s.errors + 1, failing := false } else some s) = some t ∧ Inv t ∧ Told t := by
  by_cases hover : s.stream.stack = [] ∧ s.failing = true
  · refine ⟨_, if_pos hover, { h with errors := ?_ }, fun hf => nomatch hf⟩
    have herrors := h.errors
    rw [hover.2] at herrors
    simp only [untold, if_true, Bool.false_eq_true, if_false] at herrors ⊢
    omega
  · exact ⟨s, if_neg hover, h, fun hf hstack => hover ⟨hstack, hf⟩⟩

theorem Inv.returns (h : Inv s) (henabled : Enabled s .returns) : Does s .returns := by
  have hgoes : ∀ t u, Event.Writable.step s.stream (.returns none) = some t →
      reallyWrite { s with stream := t } = some u → Inv u → Does s .returns := by
    intro t u ht hu hinv
    obtain ⟨v, hv, hinv', htold⟩ := hinv.tells
    refine ⟨v, ?_, hinv', htold⟩
    simp only [step, Writer.returns, ht, hu, Option.bind_eq_bind, Option.bind_some]
    exact hv
  obtain ⟨f, stack, hstack⟩ := List.exists_cons_of_ne_nil (henabled : s.stream.stack ≠ [])
  have hquiet := h.quiet
  rw [hstack, List.mem_cons, not_or] at hquiet
  cases f with
  | reallyWrite => exact absurd rfl hquiet.1
  | error =>
    obtain ⟨-, hfree⟩ := h.stream.of_top_busy hstack rfl
    have hcontrol := h.control
    rw [show s.stream.unsettled = 0 by omega] at hcontrol
    obtain ⟨hidle, hlen⟩ := hcontrol.of_settled
    have hover : Over { s with stream := { s.stream with stack := stack } } :=
      ⟨h.buffers, h.stream.order, hfree, hidle, hlen, h.output, hidle ▸ h.errors⟩
    obtain ⟨u, hu, hinv, -⟩ := hover.next
    refine hgoes _ u ?_ hu hinv
    simp [Event.Writable.step, hstack]
  | drain =>
    have hreturns : Event.Writable.step s.stream (.returns none)
        = some { s.stream with stack := if s.stream.ended then .finish :: stack else stack } := by
      simp [Event.Writable.step, hstack]
    have hquiet' : Frame.reallyWrite ∉ if s.stream.ended then .finish :: stack else stack := by
      split_ifs
      · rw [List.mem_cons, not_or]
        exact ⟨by decide, hquiet.2⟩
      · exact hquiet.2
    exact hgoes _ _ hreturns (reallyWrite_of_quiet hquiet')
      { h with stream := inv_step _ _ _ h.stream hreturns, quiet := hquiet' }
  | finish =>
    have hreturns : Event.Writable.step s.stream (.returns none) = some { s.stream with stack := stack } := by
      simp [Event.Writable.step, hstack]
    exact hgoes _ _ hreturns (reallyWrite_of_quiet hquiet.2)
      { h with stream := inv_step _ _ _ h.stream hreturns, quiet := hquiet.2 }

theorem Inv.does (h : Inv s) (htold : Told s) {a : Act} (ha : Allowed s a) : Does s a := by
  obtain ⟨henabled, hkeeps⟩ := ha
  cases a with
  | make bytes => exact h.make htold bytes
  | copy i => exact h.copy htold henabled
  | release i => exact h.release htold henabled hkeeps
  | write i => exact h.write htold henabled
  | finishing => exact h.finishing htold
  | perform n => exact h.perform htold henabled
  | fail => exact h.fail htold henabled
  | callback => exact h.callback htold henabled
  | returns => exact h.returns henabled

/-! ## Runs -/

theorem Inv.start : Inv start :=
  ⟨⟨WF.empty, fun _ _ hb => (nomatch hb), fun _ hj => (nomatch hj), fun _ hb => (nomatch hb), List.nodup_nil,
    fun _ hb => (nomatch hb)⟩, inv_create, List.not_mem_nil, .idle rfl, rfl, rfl⟩

theorem Inv.run (h : Inv s) (htold : Told s) (hallowed : Meets step Allowed s as) :
    ∃ t, Runs.run step s as = some t ∧ Inv t ∧ Told t := by
  induction as generalizing s with
  | nil => exact ⟨s, rfl, h, htold⟩
  | cons a as ih =>
    obtain ⟨ha, has⟩ := hallowed
    obtain ⟨t, ht, hinv, htold'⟩ := h.does htold ha
    obtain ⟨u, hu, hrest⟩ := ih hinv htold' (has t ht)
    refine ⟨u, ?_, hrest⟩
    rw [Runs.run, ht]
    exact hu

end

/-- While the program keeps the memory of what it has written, each `write` of libuv puts out the front of the
buffer that is next, the whole of it or what `write` takes: the rest is lost.  A stream that still says it is
writing when nothing is under way has come to an empty buffer.  Each error has been emitted twice. -/
theorem writer_writes {as : List Act} (hallowed : Meets step Allowed start as) :
    ∃ s, run step start as = some s ∧ s.output = (List.zipWith taken s.stream.written s.results).flatten ∧
      s.results.length ≤ s.stream.written.length ∧
      (s.stream.writing = false → s.results.length = s.stream.written.length) ∧
      (s.stream.stack = [] → s.request = .idle →
        s.errors = 2 * s.results.count none ∧
        (s.stream.writing = true → ∃ b ∈ s.stream.called.getLast?, b.bytes = [])) := by
  obtain ⟨s, hs, h, htold⟩ := Inv.start.run (fun hf => nomatch hf) hallowed
  have hwritten := congrArg List.length h.stream.order
  rw [List.length_append] at hwritten
  have hle := h.control.results_le
  refine ⟨s, hs, ?_, by omega, fun hwriting => ?_, fun hstack hidle => ?_⟩
  · rw [h.stream.order, zipWith_append_left taken hle, h.output]
  · have hbusy := h.stream.busy
    rw [hwriting, if_neg (by decide)] at hbusy
    have hcontrol := h.control
    rw [show s.stream.unsettled = 0 by omega] at hcontrol
    rw [hcontrol.of_settled.2, h.stream.order, h.stream.idle hwriting, List.append_nil]
  · have hfailing : s.failing = false := by
      by_contra hf
      exact htold (Bool.not_eq_false _ ▸ hf) hstack
    have herrors := h.errors
    rw [hidle, hfailing] at herrors
    refine ⟨herrors, fun hwriting => ?_⟩
    have hbusy := h.stream.busy
    rw [hwriting, if_pos rfl, hstack, List.countP_nil, Nat.zero_add] at hbusy
    have hcontrol := h.control
    rw [hbusy, hidle] at hcontrol
    exact hcontrol.of_unsettled

/-- The program keeps two buffers until they are written; of the second one byte is left out. -/
theorem twoBuffers_writes : ∃ s, run step start [.make [1, 2], .make [3, 4], .write 0, .write 1, .perform 2, .callback,
    .release 0, .perform 1, .callback, .release 1] = some s ∧
      s.output = (List.zipWith taken s.stream.written s.results).flatten := by
  obtain ⟨s, hs, houtput, -⟩ := writer_writes (show Meets step Allowed start [.make [1, 2], .make [3, 4], .write 0,
    .write 1, .perform 2, .callback, .release 0, .perform 1, .callback, .release 1] by decide)
  exact ⟨s, hs, houtput⟩

/-- A buffer that is not kept has been freed when it is to be written. -/
example : (run step start [.make [1, 2], .write 0, .release 0, .perform 2]).isNone = true := by decide

/-- After a write of nothing the writer is stuck. -/
structure Stuck (s : State) (called : List Copy) (output : List UInt8) : Prop where
  idle : s.request = .idle
  writing : s.stream.writing = true
  stack : s.stream.stack = []
  called : s.stream.called = called
  output : s.output = output

theorem Stuck.step {s t : State} {called : List Copy} {output : List UInt8} (h : Stuck s called output) (a : Act)
    (hstep : step s a = some t) : Stuck t called output := by
  cases a with
  | make bytes =>
    obtain rfl := Option.some.inj hstep
    exact ⟨h.idle, h.writing, h.stack, h.called, h.output⟩
  | copy i =>
    obtain ⟨H, -, hH⟩ := Option.bind_eq_some_iff.mp hstep
    obtain rfl := Option.some.inj hH
    exact ⟨h.idle, h.writing, h.stack, h.called, h.output⟩
  | release i =>
    obtain rfl := Option.some.inj hstep
    exact ⟨h.idle, h.writing, h.stack, h.called, h.output⟩
  | write i =>
    obtain ⟨bytes, -, hstep⟩ := Option.bind_eq_some_iff.mp hstep
    obtain ⟨H, -, hstep⟩ := Option.bind_eq_some_iff.mp hstep
    obtain ⟨u, hu, hstep⟩ := Option.bind_eq_some_iff.mp hstep
    have hwrite : u = { s.stream with
        written := s.stream.written ++ [⟨s.heap.slots, bytes⟩]
        queue := s.stream.queue ++ [⟨s.heap.slots, bytes⟩] } := by
      simpa [Event.Writable.step, Stream.write, h.writing] using hu.symm
    subst hwrite
    rw [reallyWrite, h.stack] at hstep
    obtain rfl := Option.some.inj hstep
    exact ⟨h.idle, h.writing, h.stack, h.called, h.output⟩
  | finishing =>
    have hend := Stream.finishing_of_writing h.writing
    obtain rfl : { s with stream := s.stream.finishing } = t := Option.some.inj hstep
    rw [hend]
    exact ⟨h.idle, h.writing, h.stack, h.called, h.output⟩
  | perform n =>
    simp only [Writer.step, perform, h.idle] at hstep
    contradiction
  | fail =>
    simp only [Writer.step, fail, h.idle] at hstep
    contradiction
  | callback =>
    simp only [Writer.step, onWrite, h.idle] at hstep
    contradiction
  | returns =>
    simp only [Writer.step, returns, Event.Writable.step, h.stack] at hstep
    contradiction

end Nodeoze.Fs.Writer
