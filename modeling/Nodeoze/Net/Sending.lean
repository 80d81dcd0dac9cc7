import Nodeoze.Buffer.Isolation
import Nodeoze.Buffer.Contents
import Nodeoze.Event.Writable

/-!
# What a TCP socket sends

A `net_tcp_socket` is a writable stream.  Its `really_write` puts the buffer into a `write_t`, where it is
given a block of its own, and hands the address to libuv; the kernel takes the bytes bit by bit, and then libuv calls
`on_send`, which settles the promise of the write and deletes the `write_t` at its end.  The copies that the callers of
`really_write` have for the time of the call are left out.

The program does as it likes with its buffers as long as none of them is `no_copy_on_write`; moves, which give
a buffer away, are left out.  The slots of the copies that the socket has made are not the program's.  The
socket is connected and is not closed, and no handler runs the loop.
-/

namespace Nodeoze.Net.Sending

open RefHeap Splice Runs Buffer Event.Writable

/-- A buffer that was written to the socket, with what it showed then. -/
structure Copy where
  slot : Nat
  bytes : List UInt8
  deriving DecidableEq, Repr

/-- The `write_t` that there is: the slot of `m_buf`, what the address was taken of, and how many bytes the kernel has
taken.  When libuv is done with it `on_send` is due.  One that libuv has refused is deleted when the handlers
of `error` are over. -/
inductive Request
  | idle
  | sending (slot : Nat) (h : Handle) (taken : Nat)
  | sent (slot taken : Nat) (failed : Bool)
  | refused (slot : Nat)
  deriving DecidableEq, Repr

def Request.taken? : Request → List Nat
  | .sending _ _ taken => [taken]
  | .sent _ taken _ => [taken]
  | _ => []

/-- How many bytes the kernel has still to take. -/
def Request.left? : Request → Option Nat
  | .sending _ h taken => some (h.size - taken)
  | _ => none

def Request.isSent : Request → Bool
  | .sent .. => true
  | _ => false

/-- A write that is over: how many bytes were sent, and whether it failed. -/
structure Result where
  taken : Nat
  failed : Bool
  deriving DecidableEq, Repr

/-- `ending` is the slot of the `write_t` whose `on_send` is not over, `output` what the kernel has taken. -/
structure State where
  heap : Heap
  stream : Stream Copy
  request : Request
  ending : Option Nat
  results : List Result
  output : List UInt8

/-- `reallyWrite` says whether libuv accepts the request. -/
inductive Act
  | op (o : Op)
  | write (i : Nat)
  | finishing
  | reallyWrite (accepted : Bool)
  | send (n : Nat)
  | complete (failed : Bool)
  | onSend
  | delete
  | returns

def start : State where
  heap := RefHeap.empty
  stream := .create
  request := .idle
  ending := none
  results := []
  output := []

def write (s : State) (i : Nat) : Option State := do
  let bytes ← s.heap.content i
  let H ← adopt s.heap i
  pure { s with heap := H, stream := (s.stream.write ⟨s.heap.slots, bytes⟩).1 }

/-- `really_write`; when libuv does not accept the request, up to the handlers that `on_send` calls. -/
def reallyWrite (s : State) (accepted : Bool) : Option State := do
  let b ← s.stream.called.getLast?
  let h ← s.heap.bufs b.slot
  if 0 < h.size then
    let H ← mutableData s.heap b.slot
    let h ← H.bufs b.slot
    if accepted then
      let t ← Event.Writable.step s.stream (.returns none)
      pure { s with heap := H, stream := t, request := .sending b.slot h 0 }
    else pure { s with heap := H, request := .refused b.slot }
  else
    let t ← Event.Writable.step s.stream (.returns (some false))
    pure { s with heap := s.heap.detach b.slot, stream := t, results := s.results ++ [⟨0, false⟩] }

/-- The kernel takes the next `n` bytes. -/
def send (s : State) (n : Nat) : Option State :=
  match s.request with
  | .sending slot h taken => do
    let bytes ← s.heap.read (h.at taken) n
    pure { s with request := .sending slot h (taken + n), output := s.output ++ bytes }
  | _ => none

/-- `on_send`, up to the handlers. -/
def onSend (s : State) : Option State :=
  match s.request with
  | .sent slot taken failed => do
    let t ← Event.Writable.step s.stream (.settle failed)
    pure { s with stream := t, request := .idle, ending := some slot, results := s.results ++ [⟨taken, failed⟩] }
  | _ => none

/-- The innermost handler returns; after a request that was refused `really_write` does, with a promise that is
rejected. -/
def returns (s : State) : Option State :=
  match s.request with
  | .refused slot => do
    let t ← Event.Writable.step s.stream (.returns (some true))
    pure { s with
      heap := s.heap.detach slot
      stream := t
      request := .idle
      results := s.results ++ [⟨0, true⟩] }
  | _ => do
    let t ← Event.Writable.step s.stream (.returns none)
    pure { s with stream := t }

section

variable (junk : Nat → Nat → UInt8)

def step (s : State) : Act → Option State
  | .op o => (exec junk s.heap o).map fun H => { s with heap := H }
  | .write i => write s i
  | .finishing => some { s with stream := s.stream.finishing }
  | .reallyWrite accepted => reallyWrite s accepted
  | .send n => send s n
  | .complete failed =>
    match s.request with
    | .sending slot _ taken => some { s with request := .sent slot taken failed }
    | _ => none
  | .onSend => onSend s
  | .delete => s.ending.map fun slot => { s with heap := s.heap.detach slot, ending := none }
  | .returns => returns s

end

/-- The stream calls `really_write`, and nothing else runs. -/
def Calls (s : State) : Prop := s.stream.stack.head? = some .reallyWrite ∧ s.request = .idle

instance (s : State) : Decidable (Calls s) := inferInstanceAs (Decidable (_ ∧ _))

def Allowed (s : State) : Act → Prop
  | .op o => ¬ Calls s ∧ allows s.heap o = true ∧ isolating o = true ∧
      o.target s.heap ∉ s.stream.written.map Copy.slot
  | .write i => ¬ Calls s ∧ (s.heap.bufs i).isSome = true
  | .finishing => ¬ Calls s
  | .reallyWrite _ => Calls s
  | .send n => ∃ left ∈ s.request.left?, n ≤ left
  | .complete failed => ∃ left ∈ s.request.left?, failed = true ∨ left = 0
  | .onSend => s.request.isSent = true ∧ s.stream.stack = [] ∧ s.ending = none
  | .delete => s.ending ≠ none ∧ s.stream.stack = []
  | .returns => s.stream.stack ≠ [] ∧ ¬ Calls s

instance (s : State) : ∀ a, Decidable (Allowed s a)
  | .op o => inferInstanceAs (Decidable (¬ Calls s ∧ allows s.heap o = true ∧ isolating o = true ∧
      o.target s.heap ∉ s.stream.written.map Copy.slot))
  | .write i => inferInstanceAs (Decidable (¬ Calls s ∧ (s.heap.bufs i).isSome = true))
  | .finishing => inferInstanceAs (Decidable (¬ Calls s))
  | .reallyWrite _ => inferInstanceAs (Decidable (Calls s))
  | .send n => inferInstanceAs (Decidable (∃ left ∈ s.request.left?, n ≤ left))
  | .complete failed => inferInstanceAs (Decidable (∃ left ∈ s.request.left?, failed = true ∨ left = 0))
  | .onSend => inferInstanceAs (Decidable (s.request.isSent = true ∧ s.stream.stack = [] ∧ s.ending = none))
  | .delete => inferInstanceAs (Decidable (s.ending ≠ none ∧ s.stream.stack = []))
  | .returns => inferInstanceAs (Decidable (s.stream.stack ≠ [] ∧ ¬ Calls s))

/-! ## The copies -/

/-- `waiting` are the buffers that were written to the socket and are not sent. -/
structure Copies (H : Heap) (written waiting : List Copy) (ending : Option Nat) : Prop where
  inv : Buffer.Inv H
  guarded : Guarded H
  fresh : ∀ b ∈ written, b.slot < H.slots
  among : waiting ⊆ written
  nodup : (waiting.map Copy.slot).Nodup
  shows : ∀ b ∈ waiting, H.content b.slot = some b.bytes
  ending : ∀ i ∈ ending, (∃ b ∈ written, b.slot = i) ∧ (∀ b ∈ waiting, b.slot ≠ i) ∧ ∃ h, H.bufs i = some h

section

variable {H H' : Heap} {written waiting : List Copy} {ending : Option Nat} {i : Nat} {b : Copy} {h : Handle}

theorem bufs_of_content {bytes : List UInt8} (hcontent : H.content i = some bytes) : ∃ h, H.bufs i = some h := by
  obtain ⟨h, hbuf, -⟩ := Option.bind_eq_some_iff.mp hcontent
  exact ⟨h, hbuf⟩

/-- A step in a slot that is not the socket's. -/
theorem Copies.frame (c : Copies H written waiting ending) (hinv : Buffer.Inv H') (hguarded : Guarded H')
    (hf : Frame i H H') (hi : ∀ b ∈ written, b.slot ≠ i) : Copies H' written waiting ending where
  inv := hinv
  guarded := hguarded
  fresh b hb := Nat.lt_of_lt_of_le (c.fresh b hb) hf.slots
  among := c.among
  nodup := c.nodup
  shows b hb := (hf.content b.slot (hi b (c.among hb))).trans (c.shows b hb)
  ending j hj := by
    obtain ⟨⟨b, hb, rfl⟩, hapart, h, hbuf⟩ := c.ending j hj
    exact ⟨⟨b, hb, rfl⟩, hapart, h, (hf.bufs _ (hi b hb)).trans hbuf⟩

theorem Copies.op (junk : Nat → Nat → UInt8) (c : Copies H written waiting ending) {o : Op}
    (hallows : allows H o = true) (hiso : isolating o = true) (htarget : o.target H ∉ written.map Copy.slot) :
    ∃ H', exec junk H o = some H' ∧ Copies H' written waiting ending ∧
      ∀ b ∈ written, H'.bufs b.slot = H.bufs b.slot := by
  obtain ⟨H', hstep, hout⟩ := c.inv.step junk hallows
  obtain ⟨hf, hguarded⟩ := hout.isolated hiso c.guarded
  have hne : ∀ b ∈ written, b.slot ≠ o.target H := fun b hb heq => htarget (heq ▸ List.mem_map_of_mem hb)
  exact ⟨H', exec_of_step junk hstep, c.frame hout.inv hguarded hf hne, fun b hb => hf.bufs _ (hne b hb)⟩

theorem Copies.add (c : Copies H written waiting ending) (hlt : b.slot < H.slots)
    (hnew : ∀ d ∈ written, d.slot ≠ b.slot) (hshows : H.content b.slot = some b.bytes) :
    Copies H (written ++ [b]) (waiting ++ [b]) ending where
  inv := c.inv
  guarded := c.guarded
  fresh d hd := by
    rcases List.mem_append.mp hd with hd | hd
    · exact c.fresh d hd
    · rwa [List.mem_singleton.mp hd]
  among d hd := by
    rcases List.mem_append.mp hd with hd | hd
    · exact List.mem_append_left _ (c.among hd)
    · exact List.mem_append_right _ hd
  nodup := by
    rw [List.map_append, List.map_singleton, List.nodup_append]
    refine ⟨c.nodup, List.nodup_singleton _, ?_⟩
    intro j hj k hk
    obtain ⟨d, hd, rfl⟩ := List.mem_map.mp hj
    rw [List.mem_singleton.mp hk]
    exact hnew d (c.among hd)
  shows d hd := by
    rcases List.mem_append.mp hd with hd | hd
    · exact c.shows d hd
    · rwa [List.mem_singleton.mp hd]
  ending j hj := by
    obtain ⟨⟨d, hd, rfl⟩, hapart, hbuf⟩ := c.ending j hj
    refine ⟨⟨d, List.mem_append_left _ hd, rfl⟩, fun e he => ?_, hbuf⟩
    rcases List.mem_append.mp he with he | he
    · exact hapart e he
    · rw [List.mem_singleton.mp he]
      exact (hnew d hd).symm

/-- The socket gets a copy, which shows what the buffer does. -/
theorem Copies.write (c : Copies H written waiting ending) (hi : (H.bufs i).isSome = true) :
    ∃ H' bytes, H.content i = some bytes ∧ adopt H i = some H' ∧
      Copies H' (written ++ [⟨H.slots, bytes⟩]) (waiting ++ [⟨H.slots, bytes⟩]) ending ∧
      ∀ b ∈ written, H'.bufs b.slot = H.bufs b.slot := by
  obtain ⟨h, hbuf⟩ := Option.isSome_iff_exists.mp hi
  obtain ⟨B, bytes, o, -⟩ := c.inv.owned hbuf
  obtain ⟨B', a⟩ := c.inv.at hbuf
  obtain ⟨H', -, hH, -, hcontent, hf, -⟩ := o.adopt
  obtain ⟨H'', h'', B'', hH', hchange, -⟩ := a.makes_adopt (c.inv.wf.absent _ (Nat.le_refl _))
  obtain rfl : H' = H'' := Option.some.inj (hH.symm.trans hH')
  have hguarded : Guarded H.push := c.guarded
  have hne : ∀ b ∈ written, b.slot ≠ H.slots := fun b hb => Nat.ne_of_lt (c.fresh b hb)
  refine ⟨H', bytes, o.content, hH, ?_, fun b hb => hf.bufs _ (hne b hb)⟩
  refine (c.frame (hchange.inv c.inv.push) (hchange.frame c.inv.push hguarded).2 hf hne).add ?_ hne hcontent
  rw [hchange.slots]
  exact Nat.lt_succ_self _

theorem Copies.size (c : Copies H written waiting ending) (hb : b ∈ waiting) (hbuf : H.bufs b.slot = some h) :
    h.size = b.bytes.length := by
  obtain ⟨B, bytes, o, -⟩ := c.inv.owned hbuf
  obtain rfl := Option.some.inj ((c.shows b hb).symm.trans o.content)
  exact o.length.symm

theorem Copies.read (c : Copies H written waiting ending) (hb : b ∈ waiting) (hbuf : H.bufs b.slot = some h)
    {k n : Nat} (hk : k + n ≤ h.size) : H.read (h.at k) n = some ((b.bytes.drop k).take n) := by
  obtain ⟨B, bytes, o, -⟩ := c.inv.owned hbuf
  obtain rfl := Option.some.inj ((c.shows b hb).symm.trans o.content)
  exact o.read_at hk

/-- The copy is given a block of its own. -/
theorem Copies.own (c : Copies H written waiting ending) (hb : b ∈ waiting) :
    ∃ H' h, mutableData H b.slot = some H' ∧ H'.bufs b.slot = some h ∧ Copies H' written waiting ending := by
  obtain ⟨h, hbuf⟩ := bufs_of_content (c.shows b hb)
  obtain ⟨B, bytes, o, -⟩ := c.inv.owned hbuf
  obtain ⟨B', a⟩ := c.inv.at hbuf
  obtain ⟨H', h', B₁, hH, o', hf, -⟩ := o.mutableData
  obtain ⟨H'', h'', B₂, hH', hchange, -⟩ := a.mutableData
  obtain rfl : H' = H'' := Option.some.inj (hH.symm.trans hH')
  have hcontent : ∀ j, H'.content j = H.content j := by
    intro j
    by_cases hj : j = b.slot
    · rw [hj, o'.content, o.content]
    · exact hf.content j hj
  refine ⟨H', h', hH, o'.buf, ⟨hchange.inv c.inv, (hchange.frame c.inv c.guarded).2, ?_, c.among, c.nodup, ?_, ?_⟩⟩
  · exact fun d hd => Nat.lt_of_lt_of_le (c.fresh d hd) hf.slots
  · exact fun d hd => (hcontent d.slot).trans (c.shows d hd)
  · intro j hj
    obtain ⟨hmem, hapart, k, hk⟩ := c.ending j hj
    exact ⟨hmem, hapart, k, (hf.bufs j (hapart b hb).symm).trans hk⟩

/-- The first of the copies ends. -/
theorem Copies.drop (c : Copies H written (b :: waiting) ending) : Copies (H.detach b.slot) written waiting ending := by
  obtain ⟨h, hbuf⟩ := bufs_of_content (c.shows b List.mem_cons_self)
  have hchange : Change b.slot H (H.detach b.slot) := .drop hbuf
  obtain ⟨hf, hguarded⟩ := hchange.frame c.inv c.guarded
  have hnodup := c.nodup
  rw [List.map_cons, List.nodup_cons] at hnodup
  have hmem : ∀ d ∈ waiting, d ∈ b :: waiting := fun d hd => List.mem_cons_of_mem _ hd
  refine ⟨hchange.inv c.inv, hguarded, ?_, fun d hd => c.among (hmem d hd), hnodup.2, ?_, ?_⟩
  · exact fun d hd => Nat.lt_of_lt_of_le (c.fresh d hd) hf.slots
  · intro d hd
    have hne : d.slot ≠ b.slot := fun heq => hnodup.1 (heq ▸ List.mem_map_of_mem hd)
    exact (hf.content d.slot hne).trans (c.shows d (hmem d hd))
  · intro j hj
    obtain ⟨hwritten, hapart, k, hk⟩ := c.ending j hj
    exact ⟨hwritten, fun d hd => hapart d (hmem d hd), k, (hf.bufs j (hapart b List.mem_cons_self).symm).trans hk⟩

/-- The first of the copies is sent, and its `on_send` is not over. -/
theorem Copies.finish (c : Copies H written (b :: waiting) none) : Copies H written waiting (some b.slot) := by
  have hnodup := c.nodup
  rw [List.map_cons, List.nodup_cons] at hnodup
  have hmem : ∀ d ∈ waiting, d ∈ b :: waiting := fun d hd => List.mem_cons_of_mem _ hd
  refine ⟨c.inv, c.guarded, c.fresh, fun d hd => c.among (hmem d hd), hnodup.2, fun d hd => c.shows d (hmem d hd), ?_⟩
  intro j hj
  obtain rfl := Option.some.inj hj
  refine ⟨⟨b, c.among List.mem_cons_self, rfl⟩, fun d hd heq => ?_, bufs_of_content (c.shows b List.mem_cons_self)⟩
  exact hnodup.1 (heq ▸ List.mem_map_of_mem hd)

theorem Copies.delete (c : Copies H written waiting (some i)) : Copies (H.detach i) written waiting none := by
  obtain ⟨-, hapart, h, hbuf⟩ := c.ending i rfl
  have hchange : Change i H (H.detach i) := .drop hbuf
  obtain ⟨hf, hguarded⟩ := hchange.frame c.inv c.guarded
  refine ⟨hchange.inv c.inv, hguarded, ?_, c.among, c.nodup, ?_, fun j hj => absurd hj (by simp)⟩
  · exact fun d hd => Nat.lt_of_lt_of_le (c.fresh d hd) hf.slots
  · exact fun d hd => (hf.content d.slot (hapart d hd)).trans (c.shows d hd)

end

/-! ## The socket -/

/-- What is sent of a buffer. -/
def part (b : Copy) (n : Nat) : List UInt8 := b.bytes.take n

/-- Where the buffer is that `really_write` was called for, if its write is not over. -/
inductive Control (H : Heap) : List Copy → List Frame → Nat → Request → Prop
  | free {stack : List Frame} : .reallyWrite ∉ stack → Control H [] stack 0 .idle
  | called {b : Copy} {stack : List Frame} : .reallyWrite ∉ stack → Control H [b] (.reallyWrite :: stack) 0 .idle
  | refused {b : Copy} {stack : List Frame} : .reallyWrite ∉ stack →
      Control H [b] (.reallyWrite :: stack) 0 (.refused b.slot)
  | sending {b : Copy} {stack : List Frame} {h : Handle} {taken : Nat} : .reallyWrite ∉ stack →
      H.bufs b.slot = some h → taken ≤ h.size → Control H [b] stack 1 (.sending b.slot h taken)
  | sent {b : Copy} {stack : List Frame} {taken : Nat} {failed : Bool} : .reallyWrite ∉ stack →
      (failed = false → taken = b.bytes.length) → Control H [b] stack 1 (.sent b.slot taken failed)

/-- `done` are the buffers whose writes are over, and `current` is the one whose write is not. -/
structure Inv (s : State) (done current : List Copy) : Prop where
  called : s.stream.called = done ++ current
  results : s.results.length = done.length
  copies : Copies s.heap s.stream.written (current ++ s.stream.queue) s.ending
  stream : Event.Writable.Inv s.stream
  control : Control s.heap current s.stream.stack s.stream.unsettled s.request
  output : s.output = (List.zipWith part done (s.results.map Result.taken)).flatten
    ++ (List.zipWith part current s.request.taken?).flatten
  whole : ∀ p ∈ done.zip s.results, p.2.failed = false → p.2.taken = p.1.bytes.length

/-- A write is over, and the stream goes on. -/
structure Over (s : State) (done : List Copy) : Prop where
  called : s.stream.called = done
  results : s.results.length = done.length
  copies : Copies s.heap s.stream.written s.stream.queue s.ending
  order : s.stream.written = s.stream.called ++ s.stream.queue
  free : s.stream.stack.countP Frame.busy + s.stream.unsettled = 0
  idle : s.request = .idle
  output : s.output = (List.zipWith part done (s.results.map Result.taken)).flatten
  whole : ∀ p ∈ done.zip s.results, p.2.failed = false → p.2.taken = p.1.bytes.length

section

variable {s : State} {done current : List Copy} {b : Copy} {as : List Act}

/-- The next buffer is handed on, if one waits. -/
theorem Over.next (h : Over s done) : ∃ current, Inv { s with stream := s.stream.next } done current := by
  have hfree := h.free
  have hquiet : Frame.reallyWrite ∉ s.stream.stack := quiet_of_free (by omega)
  have hunsettled : s.stream.unsettled = 0 := by omega
  have hstream : Event.Writable.Inv s.stream.next := inv_next h.order h.free
  cases hqueue : s.stream.queue with
  | nil =>
    have hnext := Stream.next_of_nil hqueue
    have hquiet' : Frame.reallyWrite ∉ Frame.drain :: s.stream.stack := by
      rw [List.mem_cons, not_or]
      exact ⟨by decide, hquiet⟩
    rw [hnext] at hstream ⊢
    refine ⟨[], ⟨?_, h.results, h.copies, hstream, ?_, ?_, h.whole⟩⟩
    · rw [List.append_nil]
      exact h.called
    · change Control _ [] _ s.stream.unsettled s.request
      rw [hunsettled, h.idle]
      exact .free hquiet'
    · rw [List.zipWith_nil_left, List.flatten_nil, List.append_nil]
      exact h.output
  | cons b queue =>
    have hnext := Stream.next_of_cons hqueue
    have hcopies := h.copies
    rw [hqueue] at hcopies
    rw [hnext] at hstream ⊢
    refine ⟨[b], ⟨?_, h.results, hcopies, hstream, ?_, ?_, h.whole⟩⟩
    · change s.stream.called ++ [b] = done ++ [b]
      rw [h.called]
    · change Control _ [b] _ s.stream.unsettled s.request
      rw [hunsettled, h.idle]
      exact .called hquiet
    · change s.output = _ ++ (List.zipWith part [b] s.request.taken?).flatten
      rw [h.idle]
      exact h.output.trans (List.append_nil _).symm

/-- The promise of the write is settled. -/
theorem Over.settled (h : Over s done) (hwriting : s.stream.writing = true) (rejected : Bool) :
    ∃ current, Inv { s with stream := s.stream.settled rejected } done current := by
  cases rejected with
  | false => exact h.next
  | true =>
    have hfree := h.free
    have hstream : Event.Writable.Inv (s.stream.settled true) := inv_settled h.order hwriting h.free true
    refine ⟨[], ⟨?_, h.results, h.copies, hstream, ?_, ?_, h.whole⟩⟩
    · rw [List.append_nil]
      exact h.called
    · change Control _ [] (.error :: s.stream.stack) s.stream.unsettled s.request
      rw [show s.stream.unsettled = 0 by omega, h.idle]
      refine .free ?_
      rw [List.mem_cons, not_or]
      exact ⟨by decide, quiet_of_free (by omega)⟩
    · rw [List.zipWith_nil_left, List.flatten_nil, List.append_nil]
      exact h.output

/-- The write of the current buffer is over. -/
theorem Inv.over (h : Inv s done [b]) {H : Heap} {ending : Option Nat} {stack : List Frame} {unsettled : Nat}
    (r : Result) (hcopies : Copies H s.stream.written s.stream.queue ending)
    (hfree : stack.countP Frame.busy + unsettled = 0)
    (htaken : (List.zipWith part [b] s.request.taken?).flatten = part b r.taken)
    (hwhole : r.failed = false → r.taken = b.bytes.length) :
    Over { s with
      heap := H
      stream := { s.stream with stack := stack, unsettled := unsettled }
      request := .idle
      ending := ending
      results := s.results ++ [r] } (done ++ [b]) where
  called := h.called
  results := by
    change (s.results ++ [r]).length = (done ++ [b]).length
    rw [List.length_append, List.length_append, h.results]
    rfl
  copies := hcopies
  order := h.stream.order
  free := hfree
  idle := rfl
  output := by
    have hlen : done.length = (s.results.map Result.taken).length := by
      rw [List.length_map, h.results]
    change s.output = (List.zipWith part (done ++ [b]) ((s.results ++ [r]).map Result.taken)).flatten
    rw [List.map_append, List.zipWith_append hlen, List.flatten_append, h.output, htaken]
    simp
  whole := by
    intro p hp
    change p ∈ (done ++ [b]).zip (s.results ++ [r]) at hp
    rw [List.zip_append h.results.symm] at hp
    rcases List.mem_append.mp hp with hp | hp
    · exact h.whole p hp
    · rw [List.mem_singleton.mp hp]
      exact hwhole

/-! ## Acts -/

section

variable {H H' : Heap} {stack : List Frame} {unsettled : Nat} {r : Request}

theorem Control.map (h : Control H current stack unsettled r)
    (hbufs : ∀ b ∈ current, H'.bufs b.slot = H.bufs b.slot) : Control H' current stack unsettled r := by
  cases h with
  | free hquiet => exact .free hquiet
  | called hquiet => exact .called hquiet
  | refused hquiet => exact .refused hquiet
  | sending hquiet hbuf hle => exact .sending hquiet ((hbufs _ List.mem_cons_self).trans hbuf) hle
  | sent hquiet hwhole => exact .sent hquiet hwhole

theorem Control.restack (h : Control H current stack unsettled r) (hquiet : .reallyWrite ∉ stack)
    {stack' : List Frame} (hquiet' : .reallyWrite ∉ stack') : Control H current stack' unsettled r := by
  cases h with
  | free => exact .free hquiet'
  | called => exact absurd List.mem_cons_self hquiet
  | refused => exact absurd List.mem_cons_self hquiet
  | sending _ hbuf hle => exact .sending hquiet' hbuf hle
  | sent _ hwhole => exact .sent hquiet' hwhole

theorem Control.of_free (h : Control H current stack 0 r) (hquiet : .reallyWrite ∉ stack) :
    current = [] ∧ r = .idle := by
  cases h with
  | free => exact ⟨rfl, rfl⟩
  | called => exact absurd List.mem_cons_self hquiet
  | refused => exact absurd List.mem_cons_self hquiet

theorem Control.of_calls (h : Control H current stack unsettled .idle) (hcalls : stack.head? = some .reallyWrite) :
    ∃ b rest, current = [b] ∧ stack = .reallyWrite :: rest ∧ .reallyWrite ∉ rest ∧ unsettled = 0 := by
  cases h with
  | free hquiet => exact absurd (List.mem_of_mem_head? hcalls) hquiet
  | called hquiet => exact ⟨_, _, rfl, rfl, hquiet, rfl⟩

theorem Control.of_quiet (h : Control H current [] unsettled .idle) : current = [] ∧ unsettled = 0 := by
  cases h with
  | free => exact ⟨rfl, rfl⟩

theorem Control.of_refused {slot : Nat} (h : Control H current stack unsettled (.refused slot)) :
    ∃ b rest, current = [b] ∧ slot = b.slot ∧ stack = .reallyWrite :: rest ∧ .reallyWrite ∉ rest ∧ unsettled = 0 := by
  cases h with
  | refused hquiet => exact ⟨_, _, rfl, rfl, rfl, hquiet, rfl⟩

theorem Control.of_sending {slot taken : Nat} {k : Handle}
    (h : Control H current stack unsettled (.sending slot k taken)) :
    ∃ b, current = [b] ∧ slot = b.slot ∧ unsettled = 1 ∧ .reallyWrite ∉ stack ∧ H.bufs b.slot = some k ∧
      taken ≤ k.size := by
  cases h with
  | sending hquiet hbuf hle => exact ⟨_, rfl, rfl, rfl, hquiet, hbuf, hle⟩

theorem Control.of_sent {slot taken : Nat} {failed : Bool}
    (h : Control H current stack unsettled (.sent slot taken failed)) :
    ∃ b, current = [b] ∧ slot = b.slot ∧ unsettled = 1 ∧ (failed = false → taken = b.bytes.length) := by
  cases h with
  | sent _ hwhole => exact ⟨_, rfl, rfl, rfl, hwhole⟩

/-- No call of `really_write` is on the stack but one that is due or that was refused. -/
theorem Control.quiet (h : Control H current stack unsettled r)
    (hcalls : ¬ (stack.head? = some .reallyWrite ∧ r = .idle)) (hr : ∀ slot, r ≠ .refused slot) :
    .reallyWrite ∉ stack := by
  cases h with
  | free hquiet => exact hquiet
  | called => exact absurd ⟨rfl, rfl⟩ hcalls
  | refused => exact absurd rfl (hr _)
  | sending hquiet => exact hquiet
  | sent hquiet => exact hquiet

theorem Request.of_left? {left : Nat} (h : left ∈ r.left?) :
    ∃ slot k taken, r = .sending slot k taken ∧ left = k.size - taken := by
  cases r with
  | sending slot k taken => exact ⟨slot, k, taken, rfl, (Option.some.inj h).symm⟩
  | idle => contradiction
  | sent _ _ _ => contradiction
  | refused _ => contradiction

end

/-- What an act does. -/
def Does (junk : Nat → Nat → UInt8) (s : State) (a : Act) : Prop :=
  ∃ t done current, step junk s a = some t ∧ Inv t done current

variable (junk : Nat → Nat → UInt8)

theorem Inv.op (h : Inv s done current) {o : Op} (hallows : allows s.heap o = true) (hiso : isolating o = true)
    (htarget : o.target s.heap ∉ s.stream.written.map Copy.slot) : Does junk s (.op o) := by
  obtain ⟨H', hexec, hcopies, hbufs⟩ := h.copies.op junk hallows hiso htarget
  refine ⟨{ s with heap := H' }, done, current, ?_, ?_⟩
  · simp only [step, hexec, Option.map_some]
  · exact
      { h with
        copies := hcopies
        control := h.control.map fun b hb => hbufs b (h.copies.among (List.mem_append_left _ hb)) }

theorem Inv.write (h : Inv s done current) {i : Nat} (hi : (s.heap.bufs i).isSome = true) :
    Does junk s (.write i) := by
  obtain ⟨H', bytes, hcontent, hH, hcopies, hbufs⟩ := h.copies.write hi
  have hstep : step junk s (.write i)
      = some { s with heap := H', stream := (s.stream.write ⟨s.heap.slots, bytes⟩).1 } := by
    simp only [step, Sending.write, hcontent, hH, Option.bind_eq_bind, Option.bind_some]
    rfl
  have hstream := inv_write h.stream ⟨s.heap.slots, bytes⟩
  have hcontrol := h.control.map fun b hb => hbufs b (h.copies.among (List.mem_append_left _ hb))
  cases hwriting : s.stream.writing with
  | true =>
    rw [Stream.write_of_writing hwriting] at hstep hstream
    rw [List.append_assoc] at hcopies
    exact ⟨_, done, current, hstep, { h with copies := hcopies, stream := hstream, control := hcontrol }⟩
  | false =>
    have hbusy := h.stream.busy
    rw [hwriting, if_neg (by decide)] at hbusy
    have hquiet : Frame.reallyWrite ∉ s.stream.stack := quiet_of_free (by omega)
    have hnone := h.stream.idle hwriting
    rw [show s.stream.unsettled = 0 by omega] at hcontrol
    obtain ⟨rfl, hidle⟩ := hcontrol.of_free hquiet
    rw [Stream.write_of_idle hwriting] at hstep hstream
    refine ⟨_, done, [⟨s.heap.slots, bytes⟩], hstep, ⟨?_, h.results, ?_, hstream, ?_, ?_, h.whole⟩⟩
    · change s.stream.called ++ _ = done ++ _
      rw [h.called, List.append_nil]
    · change Copies H' _ ([_] ++ s.stream.queue) s.ending
      rw [hnone] at hcopies ⊢
      exact hcopies
    · change Control H' _ _ s.stream.unsettled s.request
      rw [show s.stream.unsettled = 0 by omega, hidle]
      exact .called hquiet
    · have houtput := h.output
      change s.output = _ ++ (List.zipWith part [_] s.request.taken?).flatten
      rw [hidle] at houtput ⊢
      exact houtput

theorem Inv.finishing (h : Inv s done current) : Does junk s .finishing := by
  have hstream := inv_finishing h.stream
  cases hwriting : s.stream.writing with
  | true =>
    have hend := Stream.finishing_of_writing hwriting
    rw [hend] at hstream
    refine ⟨{ s with stream := { s.stream with ended := true } }, done, current, ?_, { h with stream := hstream }⟩
    rw [← hend]
    rfl
  | false =>
    have hend := Stream.finishing_of_idle hwriting
    have hbusy := h.stream.busy
    rw [hwriting, if_neg (by decide)] at hbusy
    have hquiet : Frame.reallyWrite ∉ s.stream.stack := quiet_of_free (by omega)
    rw [hend] at hstream
    refine ⟨{ s with stream := { s.stream with ended := true, stack := .finish :: s.stream.stack } }, done, current,
      ?_, { h with stream := hstream, control := h.control.restack hquiet ?_ }⟩
    · rw [← hend]
      rfl
    · rw [List.mem_cons, not_or]
      exact ⟨by decide, hquiet⟩

theorem Inv.reallyWrite (h : Inv s done current) (hcalls : Calls s) (accepted : Bool) :
    Does junk s (.reallyWrite accepted) := by
  have hcontrol := h.control
  rw [hcalls.2] at hcontrol
  obtain ⟨b, stack, rfl, hstack, hquiet, hunsettled⟩ := hcontrol.of_calls hcalls.1
  have hlast : s.stream.called.getLast? = some b := by
    rw [h.called, List.getLast?_append, List.getLast?_singleton]
    rfl
  have hb : b ∈ [b] ++ s.stream.queue := List.mem_cons_self
  obtain ⟨k, hbuf⟩ := bufs_of_content (h.copies.shows b hb)
  obtain ⟨hwriting, hfree⟩ := h.stream.of_top_busy hstack rfl
  by_cases hsize : 0 < k.size
  · obtain ⟨H', k', hH, hbuf', hcopies⟩ := h.copies.own hb
    have houtput := h.output
    rw [hcalls.2] at houtput
    cases accepted with
    | true =>
      have hreturns : Event.Writable.step s.stream (.returns none)
          = some { s.stream with stack := stack, unsettled := s.stream.unsettled + 1 } := by
        simp [Event.Writable.step, hstack]
      refine ⟨{ s with
        heap := H'
        stream := { s.stream with stack := stack, unsettled := s.stream.unsettled + 1 }
        request := .sending b.slot k' 0 }, done, [b], ?_, ?_⟩
      · simp only [step, Sending.reallyWrite, hlast, hbuf, hH, hbuf', hreturns, if_pos hsize, if_true,
          Option.bind_eq_bind, Option.bind_some]
        rfl
      · refine
          { h with
            copies := hcopies
            stream := inv_step _ _ _ h.stream hreturns
            control := ?_
            output := houtput }
        change Control H' [b] stack (s.stream.unsettled + 1) _
        rw [hunsettled]
        exact .sending hquiet hbuf' (Nat.zero_le _)
    | false =>
      refine ⟨{ s with heap := H', request := .refused b.slot }, done, [b], ?_, ?_⟩
      · simp only [step, Sending.reallyWrite, hlast, hbuf, hH, hbuf', if_pos hsize, Option.bind_eq_bind,
          Option.bind_some]
        rfl
      · refine { h with copies := hcopies, control := ?_, output := houtput }
        change Control H' [b] s.stream.stack s.stream.unsettled (.refused b.slot)
        rw [hstack, hunsettled]
        exact .refused hquiet
  · -- of a buffer that shows nothing the promise is resolved
    have hreturns : Event.Writable.step s.stream (.returns (some false))
        = some (({ s.stream with stack := stack, unsettled := s.stream.unsettled } : Stream Copy).settled false) := by
      simp [Event.Writable.step, hstack]
    have hempty : b.bytes.length = 0 := by
      have := h.copies.size hb hbuf
      omega
    obtain ⟨current, hinv⟩ := (h.over ⟨0, false⟩ h.copies.drop hfree (by rw [hcalls.2]; rfl)
      fun _ => hempty.symm).settled hwriting false
    refine ⟨_, done ++ [b], current, ?_, hinv⟩
    simp only [step, Sending.reallyWrite, hlast, hbuf, hreturns, if_neg hsize, Option.bind_eq_bind, Option.bind_some]
    rw [hcalls.2]
    rfl

theorem Inv.send (h : Inv s done current) {n : Nat} (hn : ∃ left ∈ s.request.left?, n ≤ left) :
    Does junk s (.send n) := by
  obtain ⟨left, hleft, hn⟩ := hn
  obtain ⟨slot, k, taken, hr, rfl⟩ := Request.of_left? hleft
  have hcontrol := h.control
  have houtput := h.output
  rw [hr] at hcontrol houtput
  obtain ⟨b, rfl, rfl, hunsettled, hquiet, hbuf, hle⟩ := hcontrol.of_sending
  have hb : b ∈ [b] ++ s.stream.queue := List.mem_cons_self
  have hread := h.copies.read hb hbuf (show taken + n ≤ k.size by omega)
  refine ⟨{ s with
    request := .sending b.slot k (taken + n)
    output := s.output ++ (b.bytes.drop taken).take n }, done, [b], ?_, ?_⟩
  · simp only [step, Sending.send, hr, hread, Option.bind_eq_bind, Option.bind_some]
    rfl
  · refine { h with control := ?_, output := ?_ }
    · change Control s.heap [b] s.stream.stack s.stream.unsettled _
      rw [hunsettled]
      exact .sending hquiet hbuf (by omega)
    · change s.output ++ (b.bytes.drop taken).take n = _ ++ (List.zipWith part [b] [taken + n]).flatten
      have hparts : (List.zipWith part [b] [taken + n]).flatten
          = (List.zipWith part [b] [taken]).flatten ++ (b.bytes.drop taken).take n := by
        simp [part, List.take_add]
      rw [hparts, houtput, List.append_assoc]
      rfl

theorem Inv.complete (h : Inv s done current) {failed : Bool} 
    (hleft : ∃ left ∈ s.request.left?, failed = true ∨ left = 0) : Does junk s (.complete failed) := by
  obtain ⟨left, hleft, hend⟩ := hleft
  obtain ⟨slot, k, taken, hr, rfl⟩ := Request.of_left? hleft
  have hcontrol := h.control
  have houtput := h.output
  rw [hr] at hcontrol houtput
  obtain ⟨b, rfl, rfl, hunsettled, hquiet, hbuf, hle⟩ := hcontrol.of_sending
  have hsize := h.copies.size (List.mem_cons_self : b ∈ [b] ++ s.stream.queue) hbuf
  refine ⟨{ s with request := .sent b.slot taken failed }, done, [b], ?_, { h with control := ?_, output := houtput }⟩
  · simp only [step, hr]
  · change Control s.heap [b] s.stream.stack s.stream.unsettled _
    rw [hunsettled]
    refine .sent hquiet fun hok => ?_
    have hzero := hend.resolve_left (by rw [hok]; decide)
    omega

theorem Inv.onSend (h : Inv s done current) (hsent : s.request.isSent = true) (hstack : s.stream.stack = [])
    (hending : s.ending = none) : Does junk s .onSend := by
  cases hr : s.request with
  | idle =>
    rw [hr] at hsent
    contradiction
  | sending _ _ _ =>
    rw [hr] at hsent
    contradiction
  | refused _ =>
    rw [hr] at hsent
    contradiction
  | sent slot taken failed =>
    have hcontrol := h.control
    have hcopies := h.copies
    rw [hr] at hcontrol
    rw [hending] at hcopies
    obtain ⟨b, rfl, rfl, hunsettled, hwhole⟩ := hcontrol.of_sent
    have hwriting := h.stream.writing_of_busy (by omega)
    have hfree : s.stream.stack.countP Frame.busy + (s.stream.unsettled - 1) = 0 := by
      rw [hstack, hunsettled]
      rfl
    have hsettle : Event.Writable.step s.stream (.settle failed)
        = some (({ s.stream with stack := s.stream.stack, unsettled := s.stream.unsettled - 1 } : Stream Copy).settled
            failed) := by
      simp [Event.Writable.step, hunsettled]
    have htaken : (List.zipWith part [b] s.request.taken?).flatten = part b taken := by
      rw [hr]
      exact List.append_nil _
    obtain ⟨current, hinv⟩ := (h.over ⟨taken, failed⟩ hcopies.finish hfree htaken hwhole).settled hwriting failed
    refine ⟨_, done ++ [b], current, ?_, hinv⟩
    simp only [step, Sending.onSend, hr, hsettle, Option.bind_eq_bind, Option.bind_some]
    rfl

theorem Inv.delete (h : Inv s done current) (hending : s.ending ≠ none) : Does junk s .delete := by
  obtain ⟨slot, hslot⟩ := Option.ne_none_iff_exists'.mp hending
  have hcopies := h.copies
  rw [hslot] at hcopies
  obtain ⟨-, hapart, k, hk⟩ := hcopies.ending slot rfl
  refine ⟨{ s with heap := s.heap.detach slot, ending := none }, done, current, ?_, ?_⟩
  · simp only [step, hslot, Option.map_some]
  · refine { h with copies := hcopies.delete, control := h.control.map fun b hb => ?_ }
    exact detach_bufs_ne hk (hapart b (List.mem_append_left _ hb))

/-- After a request that was refused `really_write` returns. -/
theorem Inv.returns_refused (h : Inv s done current) {slot : Nat} (hr : s.request = .refused slot) :
    Does junk s .returns := by
  have hcontrol := h.control
  rw [hr] at hcontrol
  obtain ⟨b, stack, rfl, rfl, hstack, hquiet, hunsettled⟩ := hcontrol.of_refused
  obtain ⟨hwriting, hfree⟩ := h.stream.of_top_busy hstack rfl
  have hreturns : Event.Writable.step s.stream (.returns (some true))
      = some (({ s.stream with stack := stack, unsettled := s.stream.unsettled } : Stream Copy).settled true) := by
    simp [Event.Writable.step, hstack]
  obtain ⟨current, hinv⟩ := (h.over ⟨0, true⟩ h.copies.drop hfree (by rw [hr]; rfl)
    fun hok => absurd hok (by decide)).settled hwriting true
  refine ⟨_, done ++ [b], current, ?_, hinv⟩
  simp only [step, Sending.returns, hr, hreturns, Option.bind_eq_bind, Option.bind_some]
  rfl

theorem Inv.returns (h : Inv s done current) (hrunning : s.stream.stack ≠ []) (hcalls : ¬ Calls s) :
    Does junk s .returns := by
  by_cases hr : ∃ slot, s.request = .refused slot
  · obtain ⟨slot, hr⟩ := hr
    exact h.returns_refused junk hr
  have hquiet := h.control.quiet hcalls fun slot hslot => hr ⟨slot, hslot⟩
  have hstep : ∀ t, Event.Writable.step s.stream (.returns none) = some t →
      step junk s .returns = some { s with stream := t } := by
    intro t ht
    simp only [step, Sending.returns]
    split
    · rename_i slot hslot
      exact absurd ⟨slot, hslot⟩ hr
    · simp only [ht, Option.bind_eq_bind, Option.bind_some]
      rfl
  obtain ⟨f, stack, hstack⟩ := List.exists_cons_of_ne_nil hrunning
  have htail := hquiet
  rw [hstack, List.mem_cons, not_or] at htail
  cases f with
  | reallyWrite => exact absurd rfl htail.1
  | error =>
    obtain ⟨-, hfree⟩ := h.stream.of_top_busy hstack rfl
    have hcontrol := h.control
    rw [show s.stream.unsettled = 0 by omega] at hcontrol
    obtain ⟨rfl, hidle⟩ := hcontrol.of_free hquiet
    have hcalled := h.called
    have houtput := h.output
    rw [List.append_nil] at hcalled
    rw [hidle, List.zipWith_nil_left, List.flatten_nil, List.append_nil] at houtput
    have hover : Over { s with stream := { s.stream with stack := stack } } done :=
      ⟨hcalled, h.results, h.copies, h.stream.order, hfree, hidle, houtput, h.whole⟩
    obtain ⟨current, hinv⟩ := hover.next
    refine ⟨_, done, current, hstep _ ?_, hinv⟩
    simp [Event.Writable.step, hstack]
  | drain =>
    have hreturns : Event.Writable.step s.stream (.returns none)
        = some { s.stream with stack := if s.stream.ended then .finish :: stack else stack } := by
      simp [Event.Writable.step, hstack]
    have hquiet' : Frame.reallyWrite ∉ if s.stream.ended then .finish :: stack else stack := by
      split_ifs
      · rw [List.mem_cons, not_or]
        exact ⟨by decide, htail.2⟩
      · exact htail.2
    exact ⟨_, done, current, hstep _ hreturns,
      { h with stream := inv_step _ _ _ h.stream hreturns, control := h.control.restack hquiet hquiet' }⟩
  | finish =>
    have hreturns : Event.Writable.step s.stream (.returns none) = some { s.stream with stack := stack } := by
      simp [Event.Writable.step, hstack]
    exact ⟨_, done, current, hstep _ hreturns,
      { h with stream := inv_step _ _ _ h.stream hreturns, control := h.control.restack hquiet htail.2 }⟩

theorem Inv.does (h : Inv s done current) {a : Act} (ha : Allowed s a) : Does junk s a := by
  cases a with
  | op o => exact h.op junk ha.2.1 ha.2.2.1 ha.2.2.2
  | write i => exact h.write junk ha.2
  | finishing => exact h.finishing junk
  | reallyWrite accepted => exact h.reallyWrite junk ha accepted
  | send n => exact h.send junk ha
  | complete failed => exact h.complete junk ha
  | onSend => exact h.onSend junk ha.1 ha.2.1 ha.2.2
  | delete => exact h.delete junk ha.1
  | returns => exact h.returns junk ha.1 ha.2

/-! ## Runs -/

theorem Inv.start : Inv start [] [] where
  called := rfl
  results := rfl
  copies := by
    refine ⟨Buffer.Inv.empty, ?_, ?_, List.Subset.refl _, List.nodup_nil, ?_, ?_⟩
    · intro b B hB
      cases hB
    · intro b hb
      cases hb
    · intro b hb
      cases hb
    · intro j hj
      cases hj
  stream := inv_create
  control := .free List.not_mem_nil
  output := rfl
  whole := by simp

theorem Inv.run (h : Inv s done current) (hallowed : Meets (step junk) Allowed s as) :
    ∃ t done current, Runs.run (step junk) s as = some t ∧ Inv t done current := by
  induction as generalizing s done current with
  | nil => exact ⟨s, done, current, rfl, h⟩
  | cons a as ih =>
    obtain ⟨ha, has⟩ := hallowed
    obtain ⟨t, done', current', ht, hinv⟩ := h.does junk ha
    obtain ⟨u, done'', current'', hu, hinv'⟩ := ih hinv (has t ht)
    refine ⟨u, done'', current'', ?_, hinv'⟩
    rw [Runs.run, ht]
    exact hu

theorem Control.taken_le {H : Heap} {stack : List Frame} {unsettled : Nat} {r : Request}
    (h : Control H current stack unsettled r) : r.taken?.length ≤ current.length := by
  cases h with
  | free => exact Nat.le_refl _
  | called => exact Nat.zero_le _
  | refused => exact Nat.zero_le _
  | sending => exact Nat.le_refl _
  | sent => exact Nat.le_refl _

end

/-- The program changes its buffer and lets it go while the write is under way. -/
def changedMeanwhile : List Act :=
  [.op (.construct [1, 2, 3] .copyOnWrite), .write 0, .reallyWrite true, .send 1, .op (.put 0 0 [9, 9, 9]),
    .write 0, .op (.destroy 0), .send 2, .complete false, .onSend, .reallyWrite true, .delete, .send 3]

end Nodeoze.Net.Sending
