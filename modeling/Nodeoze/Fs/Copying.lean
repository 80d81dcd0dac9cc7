import Mathlib.Data.List.GetD
import Nodeoze.Fs.Reader
import Nodeoze.Fs.Writer

/-!
# Copying a file

A file is copied by a pipe from an `fs_reader` to an `fs_writer`.  What the reader pushes is its own buffer, and
the copies of it that wait in the writer share its memory: libuv writes from the addresses that it reads to.
The reader goes on until more than five buffers wait.

Nobody else listens to the streams or writes to the writer, and the file does not change.  The reads and writes
of the threads come one after the other, in any order.
-/

namespace Nodeoze.Fs.Copying

open RefHeap Runs Buffer Event.Writable

/-- A write that the kernel has done: which one it was, how many chunks had been read by then, and what
`write` returned. -/
structure Put where
  index : Nat
  reads : Nat
  result : Option Nat
  deriving DecidableEq, Repr

/-- `stream` and `request` are those of the writer; it has the slots of its copies, which are the `kept` of the
reader.  `resumes` are the listeners of `drain`, and `finishes` counts the events of `finish`. -/
structure State where
  reader : Reader.State
  stream : Stream Nat
  request : Writer.Request
  resumes : Nat
  puts : List Put
  output : List UInt8
  finishes : Nat

inductive Act
  | read (n : Nat)
  | readFails
  | onRead
  | ret
  | write (n : Nat)
  | writeFails
  | onWrite
  | returns
  deriving DecidableEq, Repr

section

variable (junk : Nat → Nat → UInt8)

/-- `pipe` has registered the first listener of `data`, which has the reader read. -/
def start (size : Nat) : State where
  reader := { Reader.start junk size with paused := false, request := .queued size }
  stream := .create
  request := .idle
  resumes := 0
  puts := []
  output := []
  finishes := 0

/-- `really_write` of the writer, when it is what the stream calls. -/
def reallyWrite (s : State) : Option State :=
  match s.stream.stack with
  | .reallyWrite :: _ => do
    let slot ← s.stream.called.getLast?
    let h ← s.reader.heap.bufs slot
    if s.request = .idle then
      let t ← Event.Writable.step s.stream (.returns none)
      pure { s with
        reader := { s.reader with heap := s.reader.heap.detach slot, kept := s.reader.kept.filter (· ≠ slot) }
        stream := t
        request := .queued h }
    else none
  | _ => some s

/-- The listener of `data` that `pipe` has registered, with the copy in the slot. -/
def deliver (s : State) (slot : Nat) : Option State := do
  let s' ← reallyWrite { s with stream := (s.stream.write slot).1 }
  if (s.stream.write slot).2 then pure s'
  else pure { s' with reader := Reader.reallyPause s'.reader, resumes := s'.resumes + 1 }

/-- `on_read`, up to the end of a `push`.  The listener of `end` ends the writer; that of `error` emits an
event there that has no listeners. -/
def onRead (s : State) : Option State :=
  match s.reader.request with
  | .done (some 0) => do
    let r ← Reader.onRead junk s.reader 0
    pure { s with reader := r, stream := s.stream.finishing }
  | .done (some _) => do
    let r ← Reader.onRead junk s.reader 1
    deliver { s with reader := r } s.reader.heap.slots
  | _ => do
    let r ← Reader.onRead junk s.reader 0
    pure { s with reader := r }

/-- A thread has written the first `n` bytes. -/
def write (s : State) (n : Nat) : Option State :=
  match s.request with
  | .queued h => do
    let bytes ← s.reader.heap.read h.data h.size
    pure { s with
      request := .done (some n)
      puts := s.puts ++ [⟨s.puts.length, s.reader.stored.length, some n⟩]
      output := s.output ++ bytes.take n }
  | _ => none

def writeFails (s : State) : Option State :=
  match s.request with
  | .queued _ => some { s with
      request := .done none
      puts := s.puts ++ [⟨s.puts.length, s.reader.stored.length, none⟩] }
  | _ => none

/-- `on_write`, up to a call of handlers. -/
def onWrite (s : State) : Option State :=
  match s.request with
  | .done (some 0) => some { s with request := .idle }
  | .done result => do
    let t ← Event.Writable.step s.stream (.settle result.isNone)
    reallyWrite { s with stream := t, request := .idle }
  | _ => none

/-- The listeners of `drain`. -/
def resume (r : Reader.State) : Nat → Option Reader.State
  | 0 => some r
  | n + 1 => do
    let r ← Reader.reallyRead r
    resume r n

/-- The innermost event has called its handlers. -/
def returns (s : State) : Option State :=
  match s.stream.stack with
  | .drain :: _ => do
    let r ← resume s.reader s.resumes
    let t ← Event.Writable.step s.stream (.returns none)
    pure { s with reader := r, stream := t, resumes := 0 }
  | .finish :: _ => do
    let t ← Event.Writable.step s.stream (.returns none)
    pure { s with stream := t, finishes := s.finishes + 1 }
  | _ => do
    let t ← Event.Writable.step s.stream (.returns none)
    reallyWrite { s with stream := t }

variable (file : List UInt8)

def step (s : State) : Act → Option State
  | .read n => (Reader.step junk file s.reader (.perform n)).map fun r => { s with reader := r }
  | .readFails => (Reader.step junk file s.reader .fail).map fun r => { s with reader := r }
  | .onRead => onRead junk s
  | .ret => (Reader.step junk file s.reader .ret).map fun r => { s with reader := r }
  | .write n => write s n
  | .writeFails => writeFails s
  | .onWrite => onWrite s
  | .returns => returns s

/-- What the kernel, libuv and the code that runs may do next. -/
def Allowed (s : State) : Act → Prop
  | .read n => Reader.Enabled file s.reader (.perform n)
  | .readFails => Reader.Enabled file s.reader .fail
  | .onRead => Reader.Enabled file s.reader (.callback 0) ∧ s.stream.stack = []
  | .ret => Reader.Enabled file s.reader .ret
  | .write n => ∃ h ∈ s.request.queued?, n ≤ h.size ∧ (n = 0 → h.size = 0)
  | .writeFails => s.request.queued? ≠ none
  | .onWrite => s.request.isDone = true ∧ s.reader.pushing = false ∧ s.stream.stack = []
  | .returns => s.stream.stack ≠ []

instance (s : State) : ∀ a, Decidable (Allowed file s a)
  | .read n => inferInstanceAs (Decidable (Reader.Enabled file s.reader (.perform n)))
  | .readFails => inferInstanceAs (Decidable (Reader.Enabled file s.reader .fail))
  | .onRead => inferInstanceAs (Decidable (Reader.Enabled file s.reader (.callback 0) ∧ s.stream.stack = []))
  | .ret => inferInstanceAs (Decidable (Reader.Enabled file s.reader .ret))
  | .write n => inferInstanceAs (Decidable (∃ h ∈ s.request.queued?, n ≤ h.size ∧ (n = 0 → h.size = 0)))
  | .writeFails => inferInstanceAs (Decidable (s.request.queued? ≠ none))
  | .onWrite => inferInstanceAs (Decidable (s.request.isDone = true ∧ s.reader.pushing = false ∧ s.stream.stack = []))
  | .returns => inferInstanceAs (Decidable (s.stream.stack ≠ []))

/-- Nothing runs, and no thread has anything to do. -/
def Quiet (s : State) : Prop :=
  s.reader.pushing = false ∧ s.stream.stack = [] ∧ s.reader.request = .idle ∧ s.request = .idle

end

/-! ## What the copies show -/

/-- What is left of chunk `i` when `r` chunks have been read. -/
def shown (stored : List (List UInt8)) (i r : Nat) : List UInt8 :=
  ((stored.take r).drop (i + 1)).foldl overlay (stored.getD i [])

/-- What a write has put out. -/
def Put.bytes (stored : List (List UInt8)) (p : Put) : List UInt8 :=
  (shown stored p.index p.reads).take (p.result.getD 0)

/-- The memory of the buffer starts with what is left of each chunk. -/
def Shows (stored : List (List UInt8)) (mem : List UInt8) : Prop :=
  ∀ i chunk, stored[i]? = some chunk → chunk.length ≤ mem.length ∧ mem.take chunk.length = shown stored i stored.length

section

variable {stored new : List (List UInt8)} {i r : Nat} {mem mem' bytes : List UInt8}

theorem shown_append (hi : i < r) (hr : r ≤ stored.length) : shown (stored ++ new) i r = shown stored i r := by
  have hget : (stored ++ new).getD i [] = stored.getD i [] := List.getD_append _ _ _ _ (by omega)
  rw [shown, shown, List.take_append_of_le_length hr, hget]

theorem shown_last : shown (stored ++ [bytes]) stored.length (stored.length + 1) = bytes := by
  have hnone : ((stored ++ [bytes]).take (stored.length + 1)).drop (stored.length + 1) = [] := by
    rw [List.drop_eq_nil_iff, List.length_take]
    omega
  rw [shown, hnone, List.foldl_nil, List.getD_append_right _ _ _ _ (Nat.le_refl _), Nat.sub_self]
  rfl

theorem shown_succ (hi : i < stored.length) :
    shown (stored ++ [bytes]) i (stored.length + 1) = overlay (shown stored i stored.length) bytes := by
  have hall : (stored ++ [bytes]).take (stored.length + 1) = stored ++ [bytes] := by
    apply List.take_of_length_le
    rw [List.length_append, List.length_singleton]
  have hget : (stored ++ [bytes]).getD i [] = stored.getD i [] := List.getD_append _ _ _ _ hi
  rw [shown, shown, hall, List.take_length, List.drop_append_of_le_length hi, List.foldl_append, hget]
  rfl

theorem Put.bytes_append {p : Put} (hp : p.index < p.reads ∧ p.reads ≤ stored.length) :
    p.bytes (stored ++ new) = p.bytes stored := by
  rw [Put.bytes, Put.bytes, shown_append hp.1 hp.2]

/-- A chunk is stored over the others. -/
theorem Shows.append (h : Shows stored mem) (hlength : mem'.length = mem.length)
    (hfront : ∀ k ≤ mem.length, mem'.take k = overlay (mem.take k) bytes) (hbytes : bytes.length ≤ mem.length)
    (htake : mem'.take bytes.length = bytes) : Shows (stored ++ [bytes]) mem' := by
  intro i chunk hchunk
  rw [List.length_append, List.length_singleton]
  by_cases hi : i < stored.length
  · rw [List.getElem?_append_left hi] at hchunk
    obtain ⟨hle, hshown⟩ := h i chunk hchunk
    refine ⟨by omega, ?_⟩
    rw [hfront _ hle, hshown, shown_succ hi]
  · obtain ⟨hlt, -⟩ := List.getElem?_eq_some_iff.mp hchunk
    rw [List.length_append, List.length_singleton] at hlt
    obtain rfl : i = stored.length := by omega
    rw [List.getElem?_concat_length] at hchunk
    obtain rfl := Option.some.inj hchunk
    refine ⟨by omega, ?_⟩
    rw [htake, shown_last]

end

/-! ## The invariant -/

/-- The handle of a copy of chunk `i`. -/
def OfChunk (pushed : List (List UInt8)) (i : Nat) (h : Handle) : Prop :=
  ∃ chunk, pushed[i]? = some chunk ∧ h = ⟨0, some ⟨0, 0, 0⟩, chunk.length⟩

/-- Where the request of the writer is. -/
inductive Control (pushed : List (List UInt8)) (called puts : Nat) : Nat → Writer.Request → Prop
  | idle : puts = called → Control pushed called puts 0 .idle
  | queued {h : Handle} : puts + 1 = called → OfChunk pushed puts h → Control pushed called puts 1 (.queued h)
  | done {r : Option Nat} : puts = called → r ≠ some 0 → Control pushed called puts 1 (.done r)

/-- What the streams hand on: the copies that wait are those of the chunks that come next. -/
structure Chunks (file : List UInt8) (size : Nat) (s : State) (mem : List UInt8) (n : Nat) : Prop where
  reader : Reader.Inv file size s.reader mem n
  kept : s.reader.kept = s.stream.queue
  nodup : s.stream.queue.Nodup
  order : s.stream.written = s.stream.called ++ s.stream.queue
  written : s.stream.written.length = s.reader.pushed.length
  waiting : ∀ j slot, s.stream.queue[j]? = some slot →
    ∃ h, s.reader.heap.bufs slot = some h ∧ OfChunk s.reader.pushed (s.stream.called.length + j) h
  shows : Shows s.reader.stored mem
  indices : s.puts.map Put.index = List.range s.puts.length
  reads : ∀ p ∈ s.puts, p.index < p.reads ∧ p.reads ≤ s.reader.stored.length
  output : s.output = (s.puts.map (Put.bytes s.reader.stored)).flatten

/-- Whether `finish` is still to be emitted for an `end`. -/
def owed (t : Stream Nat) : Nat := if t.ended = true ∧ (t.writing = true ∨ t.stack ≠ []) then 1 else 0

/-- The reader is paused until the writer drains, and the end of the file ends the writer. -/
structure Flow (s : State) : Prop where
  paused : s.reader.paused = decide (s.resumes = 1)
  resumes : s.resumes ≤ 1
  ended : s.stream.ended = s.reader.closed
  finishes : s.finishes + owed s.stream = if s.reader.closed then 1 else 0

/-- The events that the writer may be emitting. -/
inductive Shape : Bool → Bool → List Frame → Prop
  | free {writing ended : Bool} : Shape writing ended []
  | error {ended : Bool} : Shape true ended [.error]
  | drain {ended : Bool} : Shape false ended [.drain]
  | finish : Shape false true [.finish]

structure Inv (file : List UInt8) (size : Nat) (s : State) (mem : List UInt8) (n : Nat) : Prop where
  chunks : Chunks file size s mem n
  flow : Flow s
  stream : Event.Writable.Inv s.stream
  shape : Shape s.stream.writing s.stream.ended s.stream.stack
  control : Control s.reader.pushed s.stream.called.length s.puts.length s.stream.unsettled s.request
  waits : s.resumes = 1 → s.stream.writing = true ∨ s.stream.stack = [.drain]
  apart : s.reader.pushing = true → s.stream.stack = []

section

variable (junk : Nat → Nat → UInt8) {file : List UInt8} {size : Nat} {s t u : State} {as : List Act}
  {mem mem' : List UInt8} {n n' : Nat}

theorem Inv.start (hsize : 0 < size) : Inv file size (start junk size) (malloc junk 0 size) size := by
  have hreader : Reader.Inv file size (Copying.start junk size).reader (malloc junk 0 size) size :=
    ((Reader.Inv.start junk hsize).reads rfl rfl rfl).2
  refine ⟨⟨hreader, rfl, List.nodup_nil, rfl, rfl, fun _ _ hj => (nomatch hj), fun _ _ hi => (nomatch hi), rfl,
    fun _ hp => (nomatch hp), rfl⟩, ⟨rfl, Nat.zero_le _, rfl, rfl⟩, inv_create, .free, .idle rfl,
    fun hr => (nomatch hr), fun _ => rfl⟩

theorem OfChunk.append {pushed new : List (List UInt8)} {i : Nat} {h : Handle} (ho : OfChunk pushed i h) :
    OfChunk (pushed ++ new) i h := by
  obtain ⟨chunk, hchunk, hh⟩ := ho
  obtain ⟨hlt, -⟩ := List.getElem?_eq_some_iff.mp hchunk
  exact ⟨chunk, by rw [List.getElem?_append_left hlt, hchunk], hh⟩

theorem Flow.same (h : Flow s) (hpaused : t.reader.paused = s.reader.paused) (hresumes : t.resumes = s.resumes)
    (hended : t.stream.ended = s.stream.ended) (hclosed : t.reader.closed = s.reader.closed)
    (hfinishes : t.finishes = s.finishes) (howed : owed t.stream = owed s.stream) : Flow t where
  paused := by rw [hpaused, hresumes, h.paused]
  resumes := hresumes ▸ h.resumes
  ended := by rw [hended, hclosed, h.ended]
  finishes := by rw [hfinishes, howed, hclosed, h.finishes]

/-- The reader has gone on. -/
theorem Chunks.reads_on (h : Chunks file size s mem n) {r : Reader.State} (hr : Reader.Inv file size r mem' n')
    (hkept : r.kept = s.reader.kept) (hpushed : r.pushed = s.reader.pushed)
    (hbufs : ∀ slot ∈ s.reader.kept, r.heap.bufs slot = s.reader.heap.bufs slot)
    (hstored : ∃ new, r.stored = s.reader.stored ++ new) (hshows : Shows r.stored mem') :
    Chunks file size { s with reader := r } mem' n' := by
  obtain ⟨new, hnew⟩ := hstored
  refine ⟨hr, hkept.trans h.kept, h.nodup, h.order, ?_, fun j slot hslot => ?_, hshows, h.indices, fun p hp => ?_, ?_⟩
  · change s.stream.written.length = r.pushed.length
    rw [hpushed, h.written]
  · obtain ⟨k, hk, hchunk⟩ := h.waiting j slot hslot
    refine ⟨k, ?_, ?_⟩
    · change r.heap.bufs slot = some k
      rw [hbufs slot (h.kept ▸ List.mem_of_getElem? hslot), hk]
    · change OfChunk r.pushed _ k
      rw [hpushed]
      exact hchunk
  · obtain ⟨hlt, hle⟩ := h.reads p hp
    change p.index < p.reads ∧ p.reads ≤ r.stored.length
    rw [hnew, List.length_append]
    omega
  · change s.output = (s.puts.map (Put.bytes r.stored)).flatten
    rw [h.output, hnew]
    congr 1
    apply List.map_congr_left
    intro p hp
    exact (Put.bytes_append (h.reads p hp)).symm

/-- The first copy that waits goes to `really_write`, which gives its address to libuv. -/
theorem Chunks.hands (h : Chunks file size s mem n) {slot : Nat} {queue : List Nat}
    (hqueue : s.stream.queue = slot :: queue) (hidle : s.request = .idle) :
    ∃ k u, u = { s with
        reader := { s.reader with heap := s.reader.heap.detach slot, kept := queue }
        stream := { s.stream with
          writing := true
          queue := queue
          called := s.stream.called ++ [slot]
          unsettled := s.stream.unsettled + 1 }
        request := .queued k } ∧
      reallyWrite { s with stream := { s.stream with
          writing := true
          queue := queue
          called := s.stream.called ++ [slot]
          stack := .reallyWrite :: s.stream.stack } } = some u ∧
      Chunks file size u mem n ∧ OfChunk s.reader.pushed s.stream.called.length k := by
  obtain ⟨k, hk, hchunk⟩ := h.waiting 0 slot (by rw [hqueue]; rfl)
  have hkept := h.kept
  have hnodup := h.nodup
  rw [hqueue] at hkept hnodup
  obtain ⟨hslot, hnodup⟩ := List.nodup_cons.mp hnodup
  have hfilter : s.reader.kept.filter (· ≠ slot) = queue := by
    rw [hkept, List.filter_cons_of_neg (by simp), List.filter_eq_self]
    intro j hj
    exact decide_eq_true fun heq => hslot (heq ▸ hj)
  obtain ⟨hreader, ho⟩ := h.reader.releases (hkept ▸ List.mem_cons_self : slot ∈ s.reader.kept)
  rw [hfilter] at hreader
  refine ⟨k, _, rfl, ?_, ⟨hreader, rfl, hnodup, ?_, h.written, fun j slot' hj => ?_, h.shows, h.indices, h.reads,
    h.output⟩, hchunk⟩
  · unfold reallyWrite
    simp only [List.getLast?_append, List.getLast?_singleton, Option.some_or, hk, hidle, hfilter, Event.Writable.step,
      Option.bind_eq_bind, Option.bind_some]
    rfl
  · change s.stream.written = (s.stream.called ++ [slot]) ++ queue
    rw [h.order, hqueue, List.append_assoc]
    rfl
  · have hj' : s.stream.queue[j + 1]? = some slot' := by
      rw [hqueue, List.getElem?_cons_succ]
      exact hj
    obtain ⟨k', hk', hchunk'⟩ := h.waiting (j + 1) slot' hj'
    refine ⟨k', ?_, ?_⟩
    · change (s.reader.heap.detach slot).bufs slot' = some k'
      rw [ho.bufs slot' fun heq => hslot (heq ▸ List.mem_of_getElem? hj), hk']
    · change OfChunk s.reader.pushed ((s.stream.called ++ [slot]).length + j) k'
      rw [List.length_append, List.length_singleton, Nat.add_assoc, Nat.add_comm 1 j]
      exact hchunk'

/-! ## Acts -/

/-- What an act does. -/
def Does (junk : Nat → Nat → UInt8) (file : List UInt8) (size : Nat) (s : State) (a : Act) : Prop :=
  ∃ t mem n, step junk file s a = some t ∧ Inv file size t mem n

/-- The reader goes on, and nothing is read or pushed. -/
theorem Inv.reads_on (h : Inv file size s mem n) {r : Reader.State} (hr : Reader.Inv file size r mem n)
    (hheap : r.heap = s.reader.heap) (hkept : r.kept = s.reader.kept) (hpushed : r.pushed = s.reader.pushed)
    (hstored : r.stored = s.reader.stored) (hpaused : r.paused = s.reader.paused) (hclosed : r.closed = s.reader.closed)
    (hpushing : r.pushing = true → s.reader.pushing = true) : Inv file size { s with reader := r } mem n where
  chunks := by
    apply h.chunks.reads_on hr hkept hpushed
    · intro slot _
      rw [hheap]
    · exact ⟨[], by rw [hstored, List.append_nil]⟩
    · rw [hstored]
      exact h.chunks.shows
  flow := h.flow.same hpaused rfl rfl hclosed rfl rfl
  stream := h.stream
  shape := h.shape
  control := by
    change Control r.pushed _ _ _ _
    rw [hpushed]
    exact h.control
  waits := h.waits
  apart hr := h.apart (hpushing hr)

theorem Inv.read (h : Inv file size s mem n) {k : Nat} (hread : Reader.Readable file s.reader k) :
    Does junk file size s (.read k) := by
  obtain ⟨H, pos, stored, mem', r, rfl, hr, hinv, hfollows, hstored⟩ := h.chunks.reader.performs hread
  refine ⟨_, mem', n, by rw [step, Reader.step, hr]; rfl, ?_⟩
  refine { h with chunks := ?_, flow := h.flow.same rfl rfl rfl rfl rfl rfl }
  apply h.chunks.reads_on hinv rfl rfl
  · intro slot hslot
    apply hfollows.bufs slot (h.chunks.reader.kept slot hslot).1 (h.chunks.reader.lt_slots hslot)
    simp
  · rcases hstored with ⟨hsame, -⟩ | ⟨bytes, hbytes, -⟩
    · exact ⟨[], by rw [List.append_nil]; exact hsame⟩
    · exact ⟨[bytes], hbytes⟩
  · change Shows stored mem'
    rcases hstored with ⟨hsame, hmem⟩ | ⟨bytes, hbytes, hle, htake⟩
    · rw [hsame, hmem]
      exact h.chunks.shows
    · obtain ⟨new, hnew, hfront⟩ := hfollows.stored
      obtain rfl : [bytes] = new := List.append_cancel_left (hbytes.symm.trans hnew)
      rw [hbytes]
      exact h.chunks.shows.append hfollows.length hfront hle htake

theorem Inv.readFails (h : Inv file size s mem n) (hallowed : Allowed file s .readFails) :
    Does junk file size s .readFails := by
  obtain ⟨len, hlen⟩ := Option.ne_none_iff_exists'.mp (hallowed : s.reader.request.queued? ≠ none)
  exact ⟨_, mem, n, rfl, h.reads_on (h.chunks.reader.fails (Reader.Request.of_queued? hlen)) rfl rfl rfl rfl rfl rfl id⟩

theorem Inv.ret (h : Inv file size s mem n) (hallowed : Allowed file s .ret) : Does junk file size s .ret := by
  obtain ⟨hret, hinv⟩ := h.chunks.reader.returns hallowed
  exact ⟨_, mem, n, by rw [step, Reader.step, hret]; rfl, h.reads_on hinv rfl rfl rfl rfl rfl rfl fun hp => nomatch hp⟩

theorem reallyWrite_of_not (h : ∀ stack, s.stream.stack ≠ .reallyWrite :: stack) : reallyWrite s = some s := by
  unfold reallyWrite
  split
  · rename_i stack heq
    exact absurd heq (h stack)
  · rfl

/-- A copy of the chunk that is pushed joins the others. -/
theorem Chunks.pushes (h : Chunks file size s mem n) {k : Nat} (hdone : s.reader.request = .done (some (k + 1))) :
    ∃ r, Reader.onRead junk s.reader 1 = some r ∧ r.paused = s.reader.paused ∧ r.closed = s.reader.closed ∧
      r.pushing = true ∧ (∃ new, r.pushed = s.reader.pushed ++ new) ∧
      Chunks file size { s with
        reader := r
        stream := { s.stream with
          written := s.stream.written ++ [s.reader.heap.slots]
          queue := s.stream.queue ++ [s.reader.heap.slots] } } mem (k + 1) := by
  obtain ⟨H, r, rfl, hr, hinv, hslots, hnew, hold⟩ := h.reader.pushes junk hdone 1
  have hbuf := hnew s.reader.heap.slots (by simp)
  have hle := hinv.buffer.le
  have hmem : mem ≠ [] := List.ne_nil_of_length_pos (by omega)
  rw [front, if_neg hmem] at hbuf
  have hcopies : ∀ slot ∈ s.stream.queue, slot ≠ Reader.readBuf ∧ slot < s.reader.heap.slots := by
    intro slot hslot
    rw [← h.kept] at hslot
    exact ⟨(h.reader.kept slot hslot).1, h.reader.lt_slots hslot⟩
  refine ⟨_, hr, rfl, rfl, rfl, ⟨_, rfl⟩, hinv, ?_, ?_, ?_, ?_, fun j slot hj => ?_, h.shows, h.indices, h.reads,
    h.output⟩
  · change s.reader.kept ++ [s.reader.heap.slots] = s.stream.queue ++ [s.reader.heap.slots]
    rw [h.kept]
  · change (s.stream.queue ++ [s.reader.heap.slots]).Nodup
    rw [List.nodup_append]
    refine ⟨h.nodup, List.nodup_singleton _, fun slot hslot slot' hslot' => ?_⟩
    have := (hcopies slot hslot).2
    rw [List.mem_singleton.mp hslot']
    omega
  · change s.stream.written ++ [s.reader.heap.slots] = s.stream.called ++ (s.stream.queue ++ [s.reader.heap.slots])
    rw [h.order, List.append_assoc]
  · change (s.stream.written ++ [s.reader.heap.slots]).length = (s.reader.pushed ++ [mem.take (k + 1)]).length
    rw [List.length_append, List.length_append, h.written]
    rfl
  · change ∃ h, H.bufs slot = some h ∧ OfChunk (s.reader.pushed ++ [mem.take (k + 1)]) (s.stream.called.length + j) h
    have hj' : (s.stream.queue ++ [s.reader.heap.slots])[j]? = some slot := hj
    by_cases hlt : j < s.stream.queue.length
    · rw [List.getElem?_append_left hlt] at hj'
      obtain ⟨k', hk', hchunk⟩ := h.waiting j slot hj'
      obtain ⟨hne, hslot⟩ := hcopies slot (List.mem_of_getElem? hj')
      exact ⟨k', by rw [hold slot hne hslot, hk'], hchunk.append⟩
    · obtain ⟨hlt', -⟩ := List.getElem?_eq_some_iff.mp hj'
      rw [List.length_append, List.length_singleton] at hlt'
      obtain rfl : j = s.stream.queue.length := by omega
      rw [List.getElem?_concat_length] at hj'
      obtain rfl := Option.some.inj hj'
      have hindex : s.stream.called.length + s.stream.queue.length = s.reader.pushed.length := by
        rw [← h.written, h.order, List.length_append]
      refine ⟨_, hbuf, mem.take (k + 1), ?_, ?_⟩
      · rw [hindex, List.getElem?_concat_length]
      · rw [List.length_take, Nat.min_eq_left hle]

theorem Control.of_settled {pushed : List (List UInt8)} {called puts : Nat} {r : Writer.Request}
    (h : Control pushed called puts 0 r) : r = .idle ∧ puts = called := by
  cases h with
  | idle hputs => exact ⟨rfl, hputs⟩

theorem Control.append {pushed new : List (List UInt8)} {called puts unsettled : Nat} {r : Writer.Request}
    (h : Control pushed called puts unsettled r) : Control (pushed ++ new) called puts unsettled r := by
  cases h with
  | idle hputs => exact .idle hputs
  | queued hputs hchunk => exact .queued hputs hchunk.append
  | done hputs hr => exact .done hputs hr

theorem Inv.settled_of_free (h : Inv file size s mem n) (hwriting : s.stream.writing = false) :
    s.stream.unsettled = 0 ∧ s.request = .idle ∧ s.puts.length = s.stream.called.length := by
  have hbusy := h.stream.busy
  rw [hwriting, if_neg (by decide)] at hbusy
  have hunsettled : s.stream.unsettled = 0 := by omega
  have hcontrol := h.control
  rw [hunsettled] at hcontrol
  exact ⟨hunsettled, hcontrol.of_settled⟩

theorem owed_of_open {stream : Stream Nat} (h : stream.ended = false) : owed stream = 0 := by
  rw [owed, if_neg]
  rintro ⟨hended, -⟩
  exact absurd (h.symm.trans hended) (by decide)

theorem Flow.of_open (hpaused : s.reader.paused = decide (s.resumes = 1)) (hresumes : s.resumes ≤ 1)
    (hended : s.stream.ended = false) (hclosed : s.reader.closed = false) (hfinishes : s.finishes = 0) : Flow s where
  paused := hpaused
  resumes := hresumes
  ended := hended.trans hclosed.symm
  finishes := by
    rw [owed_of_open hended, hfinishes, hclosed]
    rfl

/-- A chunk is with libuv. -/
theorem Inv.of_handed (h : Chunks file size s mem n) (hflow : Flow s) (hwriting : s.stream.writing = true)
    (hstack : s.stream.stack = []) (hunsettled : s.stream.unsettled = 1) {k : Handle} (hrequest : s.request = .queued k)
    (hputs : s.puts.length + 1 = s.stream.called.length) (hchunk : OfChunk s.reader.pushed s.puts.length k) :
    Inv file size s mem n := by
  refine ⟨h, hflow, ⟨h.order, ?_, fun hfree => ?_⟩, ?_, ?_, fun _ => .inl hwriting, fun _ => hstack⟩
  · rw [hstack, hunsettled, hwriting]
    rfl
  · exact absurd (hwriting.symm.trans hfree) (by decide)
  · rw [hstack]
    exact .free
  · rw [hunsettled, hrequest]
    exact .queued hputs hchunk

/-- A chunk is pushed: it is written at once, or waits, and when many wait the reader is paused. -/
theorem Inv.delivers (h : Inv file size s mem n) {k : Nat} (hdone : s.reader.request = .done (some (k + 1)))
    (hstack : s.stream.stack = []) : Does junk file size s .onRead := by
  obtain ⟨r, hr, hpaused, hclosed, hpushing, ⟨new, hnew⟩, hchunks⟩ := h.chunks.pushes junk hdone
  have hstep : step junk file s .onRead = deliver { s with reader := r } s.reader.heap.slots := by
    simp only [step, onRead, hdone, hr, Option.bind_eq_bind, Option.bind_some]
  have hcontrol := h.chunks.reader.control
  rw [hdone] at hcontrol
  obtain ⟨hfree, -, hopen, -⟩ := hcontrol.of_done
  have hresumes : s.resumes = 0 := by
    have hle := h.flow.resumes
    have hflow := h.flow.paused
    rw [hfree] at hflow
    have := of_decide_eq_false hflow.symm
    omega
  have hended := h.flow.ended.trans hopen
  have hfinishes := h.flow.finishes
  rw [owed_of_open hended, hopen, if_neg (by decide), Nat.add_zero] at hfinishes
  rw [hopen] at hclosed
  cases hwriting : s.stream.writing with
  | true =>
    have hwrite : s.stream.write s.reader.heap.slots = ({ s.stream with
        written := s.stream.written ++ [s.reader.heap.slots]
        queue := s.stream.queue ++ [s.reader.heap.slots] },
          decide ((s.stream.queue ++ [s.reader.heap.slots]).length ≤ 5)) := by
      simp [Stream.write, hwriting]
    have hstream := inv_write h.stream s.reader.heap.slots
    have hreally : ∀ s' : State, s'.stream.stack = s.stream.stack → reallyWrite s' = some s' := by
      intro s' hs'
      apply reallyWrite_of_not
      intro stack
      rw [hs', hstack]
      exact (List.cons_ne_nil _ _).symm
    have hpushed : Control r.pushed s.stream.called.length s.puts.length s.stream.unsettled s.request := by
      rw [hnew]
      exact h.control.append
    rw [hwrite] at hstream
    rw [deliver, hwrite] at hstep
    simp only [hreally, Option.bind_eq_bind, Option.bind_some] at hstep
    by_cases hok : (s.stream.queue ++ [s.reader.heap.slots]).length ≤ 5
    · rw [if_pos (decide_eq_true hok)] at hstep
      have hpaused' := hpaused.trans h.flow.paused
      exact ⟨_, mem, k + 1, hstep, hchunks, .of_open hpaused' h.flow.resumes hended hclosed hfinishes, hstream, h.shape,
        hpushed, h.waits, fun _ => hstack⟩
    · rw [if_neg (by rw [decide_eq_true_eq]; exact hok)] at hstep
      have hpause : Reader.Inv file size (Reader.reallyPause r) mem (k + 1) := hchunks.reader.pauses hpushing
      refine ⟨_, mem, k + 1, hstep, { hchunks with reader := hpause }, .of_open ?_ ?_ hended hclosed hfinishes, hstream,
        h.shape, hpushed, fun _ => .inl hwriting, fun _ => hstack⟩
      · change true = decide (s.resumes + 1 = 1)
        rw [hresumes]
        rfl
      · change s.resumes + 1 ≤ 1
        omega
  | false =>
    obtain ⟨hunsettled, hidle, hputs⟩ := h.settled_of_free hwriting
    have hnone := h.stream.idle hwriting
    have hwrite : s.stream.write s.reader.heap.slots = ({ s.stream with
        writing := true
        queue := []
        written := s.stream.written ++ [s.reader.heap.slots]
        called := s.stream.called ++ [s.reader.heap.slots]
        stack := .reallyWrite :: s.stream.stack }, true) := by
      simp [Stream.write, Stream.startWrite, hwriting, hnone]
    obtain ⟨k', u, rfl, hu, hchunks', hchunk⟩ :=
      hchunks.hands (by rw [hnone]; rfl : _ = s.reader.heap.slots :: []) hidle
    rw [deliver, hwrite] at hstep
    simp only [hu, Option.bind_eq_bind, Option.bind_some, if_true] at hstep
    have hpaused' := hpaused.trans h.flow.paused
    refine ⟨_, mem, k + 1, hstep, .of_handed hchunks' (.of_open hpaused' h.flow.resumes hended hclosed hfinishes) rfl
      hstack ?_ rfl ?_ (hputs ▸ hchunk)⟩
    · change s.stream.unsettled + 1 = 1
      rw [hunsettled]
    · change s.puts.length + 1 = (s.stream.called ++ [s.reader.heap.slots]).length
      rw [List.length_append, hputs]
      rfl

/-- The end of the file. -/
theorem Inv.ends (h : Inv file size s mem n) (hdone : s.reader.request = .done (some 0))
    (hstack : s.stream.stack = []) : Does junk file size s .onRead := by
  have hclose := h.chunks.reader.closes hdone
  have hcontrol := h.chunks.reader.control
  rw [hdone] at hcontrol
  obtain ⟨-, hpushing, hopen, -⟩ := hcontrol.of_done
  have hended := h.flow.ended.trans hopen
  have hfinishes := h.flow.finishes
  rw [owed_of_open hended, hopen, if_neg (by decide), Nat.add_zero] at hfinishes
  have hstream := inv_finishing h.stream
  have hstep : step junk file s .onRead = some { s with
      reader := { s.reader with request := .idle, closed := true, ends := s.reader.ends + 1 }
      stream := s.stream.finishing } := by
    simp only [step, onRead, hdone, Reader.onRead, Option.bind_eq_bind, Option.bind_some]
    rfl
  have hchunks : Chunks file size { s with
      reader := { s.reader with request := .idle, closed := true, ends := s.reader.ends + 1 } } mem n :=
    h.chunks.reads_on hclose rfl rfl (fun _ _ => rfl) ⟨[], (List.append_nil _).symm⟩ h.chunks.shows
  cases hwriting : s.stream.writing with
  | true =>
    have hend := Stream.finishing_of_writing hwriting
    rw [hend] at hstep hstream
    refine ⟨_, mem, n, hstep, { hchunks with reader := hclose }, ⟨h.flow.paused, h.flow.resumes, rfl, ?_⟩, hstream, ?_,
      h.control, h.waits, fun _ => hstack⟩
    · change s.finishes + owed { s.stream with ended := true } = 1
      rw [hfinishes, owed, if_pos ⟨rfl, .inl hwriting⟩]
    · change Shape s.stream.writing true s.stream.stack
      rw [hstack]
      exact .free
  | false =>
    have hend : s.stream.finishing = { s.stream with ended := true, stack := [.finish] } := by
      rw [Stream.finishing_of_idle hwriting, hstack]
    rw [hend] at hstep hstream
    refine ⟨_, mem, n, hstep, { hchunks with reader := hclose }, ⟨h.flow.paused, h.flow.resumes, rfl, ?_⟩, hstream, ?_,
      h.control, fun hresumes => ?_, fun hp => absurd (hpushing.symm.trans hp) (by decide)⟩
    · change s.finishes + owed { s.stream with ended := true, stack := [.finish] } = 1
      rw [hfinishes, owed, if_pos ⟨rfl, .inr (List.cons_ne_nil _ _)⟩]
    · change Shape s.stream.writing true [.finish]
      rw [hwriting]
      exact .finish
    · rcases h.waits hresumes with hbusy | hdrain
      · exact .inl hbusy
      · exact absurd (hstack.symm.trans hdrain) (by decide)

theorem Inv.onRead (h : Inv file size s mem n) (hallowed : Allowed file s .onRead) : Does junk file size s .onRead := by
  obtain ⟨⟨hdone, -⟩, hstack⟩ := hallowed
  cases hr : s.reader.request with
  | idle =>
    rw [hr] at hdone
    contradiction
  | queued len =>
    rw [hr] at hdone
    contradiction
  | done result =>
    cases result with
    | none =>
      refine ⟨_, mem, n, ?_, h.reads_on (h.chunks.reader.errs hr) rfl rfl rfl rfl rfl rfl id⟩
      simp only [step, Copying.onRead, hr, Reader.onRead, Option.bind_eq_bind, Option.bind_some]
      rfl
    | some k =>
      cases k with
      | zero => exact h.ends junk hr hstack
      | succ k => exact h.delivers junk hr hstack

theorem Control.of_queued {pushed : List (List UInt8)} {called puts unsettled : Nat} {k : Handle}
    (h : Control pushed called puts unsettled (.queued k)) :
    puts + 1 = called ∧ OfChunk pushed puts k ∧ unsettled = 1 := by
  cases h with
  | queued hputs hchunk => exact ⟨hputs, hchunk, rfl⟩

theorem Control.of_done {pushed : List (List UInt8)} {called puts unsettled : Nat} {r : Option Nat}
    (h : Control pushed called puts unsettled (.done r)) : puts = called ∧ r ≠ some 0 ∧ unsettled = 1 := by
  cases h with
  | done hputs hr => exact ⟨hputs, hr, rfl⟩

/-- At the address of a chunk there is what is left of it. -/
theorem Chunks.read (h : Chunks file size s mem n) {i : Nat} {k : Handle} (hchunk : OfChunk s.reader.pushed i k) :
    i < s.reader.stored.length ∧ 0 < k.size ∧
      s.reader.heap.read k.data k.size = some (shown s.reader.stored i s.reader.stored.length) := by
  obtain ⟨chunk, hi, rfl⟩ := hchunk
  obtain ⟨hlt, -⟩ := List.getElem?_eq_some_iff.mp hi
  have hstored : s.reader.stored[i]? = some chunk := by
    rw [h.reader.pushed, List.getElem?_append_left hlt, hi]
  obtain ⟨hle, hshown⟩ := h.shows i chunk hstored
  have hpos : 0 < chunk.length := by
    have := h.reader.last chunk.length (List.mem_cons_of_mem _ (List.mem_map_of_mem (List.mem_of_getElem? hi)))
    have := h.reader.pos
    omega
  obtain ⟨refs, hblk⟩ := h.reader.buffer.blk
  refine ⟨(List.getElem?_eq_some_iff.mp hstored).1, hpos, ?_⟩
  simp [RefHeap.read, hblk, hle, hshown, show chunk.length ≠ 0 by omega]

/-- The kernel is done with a write. -/
theorem Inv.puts (h : Inv file size s mem n) {k : Handle} (hqueued : s.request = .queued k) {r : Option Nat}
    (hr : r ≠ some 0) :
    Inv file size { s with
      request := .done r
      puts := s.puts ++ [⟨s.puts.length, s.reader.stored.length, r⟩]
      output := s.output ++ (shown s.reader.stored s.puts.length s.reader.stored.length).take (r.getD 0) } mem n := by
  have hcontrol := h.control
  rw [hqueued] at hcontrol
  obtain ⟨hputs, hchunk, hunsettled⟩ := hcontrol.of_queued
  obtain ⟨hlt, -⟩ := h.chunks.read hchunk
  refine { h with chunks := { h.chunks with indices := ?_, reads := ?_, output := ?_ }, flow := ?_, control := ?_ }
  · change (s.puts ++ [_]).map Put.index = List.range (s.puts ++ [_]).length
    rw [List.map_append, h.chunks.indices, List.length_append, List.length_singleton, List.range_succ]
    rfl
  · intro p hp
    rcases List.mem_append.mp hp with hp | hp
    · exact h.chunks.reads p hp
    · rw [List.mem_singleton.mp hp]
      exact ⟨hlt, Nat.le_refl _⟩
  · change s.output ++ _ = ((s.puts ++ [_]).map (Put.bytes s.reader.stored)).flatten
    rw [List.map_append, List.flatten_append, h.chunks.output, List.map_singleton, List.flatten_singleton]
    rfl
  · exact h.flow.same rfl rfl rfl rfl rfl rfl
  · change Control _ _ (s.puts ++ [_]).length s.stream.unsettled (.done r)
    rw [List.length_append, hunsettled]
    exact .done hputs hr

theorem Inv.write (h : Inv file size s mem n) {k : Nat} (hallowed : Allowed file s (.write k)) :
    Does junk file size s (.write k) := by
  obtain ⟨c, hc, hle, hzero⟩ := hallowed
  have hqueued := Writer.Request.of_queued? hc
  have hcontrol := h.control
  rw [hqueued] at hcontrol
  obtain ⟨-, hchunk, -⟩ := hcontrol.of_queued
  obtain ⟨-, hpos, hread⟩ := h.chunks.read hchunk
  refine ⟨_, mem, n, ?_, h.puts hqueued (r := some k) fun hk => ?_⟩
  · simp only [step, Copying.write, hqueued, hread, Option.bind_eq_bind, Option.bind_some]
    rfl
  · have := hzero (Option.some.inj hk)
    omega

theorem Inv.writeFails (h : Inv file size s mem n) (hallowed : Allowed file s .writeFails) :
    Does junk file size s .writeFails := by
  obtain ⟨c, hc⟩ := Option.ne_none_iff_exists'.mp (hallowed : s.request.queued? ≠ none)
  have hqueued := Writer.Request.of_queued? hc
  refine ⟨_, mem, n, ?_, h.puts hqueued (r := none) fun hk => nomatch hk⟩
  simp only [step, Copying.writeFails, hqueued]
  simp

/-- A write is over: the next copy is handed on, or the writer drains. -/
theorem Chunks.next (h : Chunks file size s mem n) (hflow : Flow s) (hwriting : s.stream.writing = true)
    (hpushing : s.reader.pushing = false) (hstack : s.stream.stack = []) (hunsettled : s.stream.unsettled = 0)
    (hidle : s.request = .idle) (hputs : s.puts.length = s.stream.called.length) :
    ∃ u, reallyWrite { s with stream := s.stream.next } = some u ∧ Inv file size u mem n := by
  cases hqueue : s.stream.queue with
  | nil =>
    have hnext : s.stream.next = { s.stream with writing := false, stack := [.drain] } := by
      rw [Stream.next_of_nil hqueue, hstack]
    have hreally : reallyWrite { s with stream := s.stream.next } = some { s with stream := s.stream.next } := by
      apply reallyWrite_of_not
      rw [hnext]
      simp
    refine ⟨_, hreally, ?_⟩
    rw [hnext]
    refine ⟨{ h with },
      hflow.same rfl rfl rfl rfl rfl ?_, ⟨h.order, ?_, fun _ => hqueue⟩, .drain, ?_, fun _ => .inr rfl,
      fun hp => absurd (hpushing.symm.trans hp) (by decide)⟩
    · simp [owed, hwriting]
    · change _ + s.stream.unsettled = 0
      rw [hunsettled]
      rfl
    · change Control _ _ _ s.stream.unsettled s.request
      rw [hunsettled, hidle]
      exact .idle hputs
  | cons slot queue =>
    have hnext := Stream.next_of_cons hqueue
    obtain ⟨k, u, rfl, hu, hchunks, hchunk⟩ := h.hands hqueue hidle
    rw [hnext]
    refine ⟨_, hu, .of_handed hchunks (hflow.same rfl rfl rfl rfl rfl ?_) rfl hstack ?_ rfl ?_ (hputs ▸ hchunk)⟩
    · simp [owed, hwriting]
    · change s.stream.unsettled + 1 = 1
      rw [hunsettled]
    · change s.puts.length + 1 = (s.stream.called ++ [slot]).length
      rw [List.length_append, hputs]
      rfl

theorem Inv.onWrite (h : Inv file size s mem n) (hallowed : Allowed file s .onWrite) :
    Does junk file size s .onWrite := by
  obtain ⟨hdone, hpushing, hstack⟩ := hallowed
  cases hr : s.request with
  | idle =>
    rw [hr] at hdone
    contradiction
  | queued k =>
    rw [hr] at hdone
    contradiction
  | done result =>
    have hcontrol := h.control
    rw [hr] at hcontrol
    obtain ⟨hputs, hresult, hunsettled⟩ := hcontrol.of_done
    have hwriting := h.stream.writing_of_busy (by omega)
    cases result with
    | none =>
      have hsettle : Event.Writable.step s.stream (.settle true)
          = some { s.stream with unsettled := 0, stack := [.error] } := by
        simp [Event.Writable.step, Stream.settled, hunsettled, hstack]
      refine ⟨{ s with stream := { s.stream with unsettled := 0, stack := [.error] }, request := .idle }, mem, n,
        ?_, ?_⟩
      · simp only [step, Copying.onWrite, hr, Option.isNone_none, hsettle, Option.bind_eq_bind, Option.bind_some]
        rfl
      · have hchunks := h.chunks
        refine ⟨{ hchunks with }, h.flow.same rfl rfl rfl rfl rfl ?_, inv_step _ _ _ h.stream hsettle, ?_, .idle hputs,
          fun _ => .inl hwriting, fun hp => absurd (hpushing.symm.trans hp) (by decide)⟩
        · simp [owed, hwriting]
        · change Shape s.stream.writing _ [.error]
          rw [hwriting]
          exact .error
    | some k =>
      have hsettle : Event.Writable.step s.stream (.settle false)
          = some ({ s.stream with unsettled := 0 } : Stream Nat).next := by
        simp [Event.Writable.step, Stream.settled, hunsettled]
      have hchunks := h.chunks
      have hover : Chunks file size { s with stream := { s.stream with unsettled := 0 }, request := .idle } mem n :=
        { hchunks with }
      obtain ⟨u, hu, hinv⟩ := hover.next (h.flow.same rfl rfl rfl rfl rfl rfl) hwriting hpushing hstack rfl rfl hputs
      refine ⟨u, mem, n, ?_, hinv⟩
      obtain ⟨k, rfl⟩ := Nat.exists_eq_succ_of_ne_zero fun hk : k = 0 => hresult (hk ▸ rfl)
      simp only [step, Copying.onWrite, hr, Option.isNone_some, hsettle, Option.bind_eq_bind, Option.bind_some]
      exact hu

theorem Shape.cases {writing ended : Bool} {stack : List Frame} (h : Shape writing ended stack) :
    stack = [] ∨ stack = [.error] ∧ writing = true ∨ stack = [.drain] ∧ writing = false ∨
      stack = [.finish] ∧ writing = false ∧ ended = true := by
  cases h with
  | free => exact .inl rfl
  | error => exact .inr (.inl ⟨rfl, rfl⟩)
  | drain => exact .inr (.inr (.inl ⟨rfl, rfl⟩))
  | finish => exact .inr (.inr (.inr ⟨rfl, rfl, rfl⟩))

theorem Inv.not_pushing (h : Inv file size s mem n) (hstack : s.stream.stack ≠ []) : s.reader.pushing = false := by
  by_contra hp
  exact hstack (h.apart (Bool.not_eq_false _ ▸ hp))

/-- The listener of `drain` lets a paused reader read again. -/
theorem Inv.resumes (h : Inv file size s mem n) (hpushing : s.reader.pushing = false) :
    ∃ r, resume s.reader s.resumes = some r ∧ Reader.Inv file size r mem n ∧ r.heap = s.reader.heap ∧
      r.kept = s.reader.kept ∧ r.pushed = s.reader.pushed ∧ r.stored = s.reader.stored ∧ r.closed = s.reader.closed ∧
      r.paused = false ∧ r.pushing = false := by
  have hflow := h.flow.paused
  by_cases hresumes : s.resumes = 1
  · rw [decide_eq_true hresumes] at hflow
    have hcontrol := h.chunks.reader.control
    rw [hflow, hpushing] at hcontrol
    obtain ⟨hidle, hopen, herrors⟩ := hcontrol.of_paused
    obtain ⟨hread, hinv⟩ := h.chunks.reader.reads hidle hopen herrors
    refine ⟨_, ?_, hinv, rfl, rfl, rfl, rfl, rfl, rfl, rfl⟩
    rw [hresumes, resume, Reader.reallyRead, hpushing] at *
    rw [hread]
    rfl
  · rw [decide_eq_false hresumes] at hflow
    have hzero : s.resumes = 0 := by
      have := h.flow.resumes
      omega
    refine ⟨s.reader, ?_, h.chunks.reader, rfl, rfl, rfl, rfl, rfl, hflow, hpushing⟩
    rw [hzero]
    rfl

theorem Inv.drains (h : Inv file size s mem n) (hstack : s.stream.stack = [.drain])
    (hwriting : s.stream.writing = false) : Does junk file size s .returns := by
  have hpushing := h.not_pushing (by rw [hstack]; exact List.cons_ne_nil _ _)
  obtain ⟨r, hr, hinv, hheap, hkept, hpushed, hstored, hclosed, hpaused, hpushing'⟩ := h.resumes hpushing
  have hreturns : Event.Writable.step s.stream (.returns none)
      = some { s.stream with stack := if s.stream.ended then [.finish] else [] } := by
    simp [Event.Writable.step, hstack]
  have hchunks : Chunks file size { s with reader := r } mem n := by
    apply h.chunks.reads_on hinv hkept hpushed
    · intro slot _
      rw [hheap]
    · exact ⟨[], by rw [hstored, List.append_nil]⟩
    · rw [hstored]
      exact h.chunks.shows
  refine ⟨{ s with
    reader := r
    stream := { s.stream with stack := if s.stream.ended then [.finish] else [] }
    resumes := 0 }, mem, n, ?_, { hchunks with reader := hinv }, ⟨hpaused, Nat.zero_le _, ?_, ?_⟩,
      inv_step _ _ _ h.stream hreturns, ?_, ?_, fun hr => absurd hr Nat.zero_ne_one, fun hp => ?_⟩
  · simp only [step, returns, hstack, hr, hreturns, Option.bind_eq_bind, Option.bind_some]
    rfl
  · exact h.flow.ended.trans hclosed.symm
  · have hfinishes := h.flow.finishes
    have howed : owed { s.stream with stack := if s.stream.ended then [.finish] else [] } = owed s.stream := by
      cases hended : s.stream.ended with
      | true => simp [owed, hended, hstack]
      | false => simp [owed, hended]
    change s.finishes + owed _ = if r.closed then 1 else 0
    rw [howed, hclosed, hfinishes]
  · change Shape s.stream.writing s.stream.ended (if s.stream.ended then [.finish] else [])
    rw [hwriting]
    cases s.stream.ended with
    | true => exact .finish
    | false => exact .free
  · change Control r.pushed _ _ _ _
    rw [hpushed]
    exact h.control
  · exact absurd (hpushing'.symm.trans hp) (by decide)

theorem Inv.finishes (h : Inv file size s mem n) (hstack : s.stream.stack = [.finish])
    (hwriting : s.stream.writing = false) (hended : s.stream.ended = true) : Does junk file size s .returns := by
  have hpushing := h.not_pushing (by rw [hstack]; exact List.cons_ne_nil _ _)
  have hreturns : Event.Writable.step s.stream (.returns none) = some { s.stream with stack := [] } := by
    simp [Event.Writable.step, hstack]
  have hchunks := h.chunks
  refine ⟨{ s with stream := { s.stream with stack := [] }, finishes := s.finishes + 1 }, mem, n, ?_, { hchunks with },
    ⟨h.flow.paused, h.flow.resumes, h.flow.ended, ?_⟩, inv_step _ _ _ h.stream hreturns, .free, h.control,
    fun hr => ?_, fun _ => rfl⟩
  · simp only [step, returns, hstack, hreturns, Option.bind_eq_bind, Option.bind_some]
    rfl
  · have hfinishes := h.flow.finishes
    have hbefore : owed s.stream = 1 := by simp [owed, hended, hstack]
    have hafter : owed { s.stream with stack := [] } = 0 := by simp [owed, hwriting]
    rw [hbefore] at hfinishes
    change s.finishes + 1 + owed _ = _
    rw [hafter, hfinishes]
  · rcases h.waits hr with hbusy | hdrain
    · exact absurd (hwriting.symm.trans hbusy) (by decide)
    · exact absurd (hstack.symm.trans hdrain) (by decide)

theorem Inv.returns (h : Inv file size s mem n) (hallowed : Allowed file s .returns) :
    Does junk file size s .returns := by
  rcases h.shape.cases with hstack | ⟨hstack, hwriting⟩ | ⟨hstack, hwriting⟩ | ⟨hstack, hwriting, hended⟩
  · exact absurd hstack hallowed
  · -- the error has been told, and the next copy is handed on
    obtain ⟨-, hfree⟩ := h.stream.of_top_busy hstack rfl
    have hunsettled : s.stream.unsettled = 0 := by omega
    have hcontrol := h.control
    rw [hunsettled] at hcontrol
    obtain ⟨hidle, hputs⟩ := hcontrol.of_settled
    have hchunks := h.chunks
    have hover : Chunks file size { s with stream := { s.stream with stack := [] } } mem n :=
      { hchunks with }
    obtain ⟨u, hu, hinv⟩ := hover.next (h.flow.same rfl rfl rfl rfl rfl (by simp [owed, hwriting])) hwriting
      (h.not_pushing hallowed) rfl hunsettled hidle hputs
    refine ⟨u, mem, n, ?_, hinv⟩
    have hreturns : Event.Writable.step s.stream (.returns none)
        = some ({ s.stream with stack := [] } : Stream Nat).next := by
      simp [Event.Writable.step, hstack]
    simp only [step, Copying.returns, hstack, hreturns, Option.bind_eq_bind, Option.bind_some]
    exact hu
  · exact h.drains junk hstack hwriting
  · exact h.finishes junk hstack hwriting hended

theorem Inv.does (h : Inv file size s mem n) {a : Act} (ha : Allowed file s a) : Does junk file size s a := by
  cases a with
  | read k => exact h.read junk ha
  | readFails => exact h.readFails junk ha
  | onRead => exact h.onRead junk ha
  | ret => exact h.ret junk ha
  | write k => exact h.write junk ha
  | writeFails => exact h.writeFails junk ha
  | onWrite => exact h.onWrite junk ha
  | returns => exact h.returns junk ha

/-! ## Runs -/

theorem Inv.run (h : Inv file size s mem n) (hallowed : Meets (step junk file) (Allowed file) s as) :
    ∃ t mem' n', Runs.run (step junk file) s as = some t ∧ Inv file size t mem' n' := by
  induction as generalizing s mem n with
  | nil => exact ⟨s, mem, n, rfl, h⟩
  | cons a as ih =>
    obtain ⟨ha, has⟩ := hallowed
    obtain ⟨t, mem', n', ht, hinv⟩ := h.does junk ha
    obtain ⟨u, mem'', n'', hu, hinv'⟩ := ih hinv (has t ht)
    refine ⟨u, mem'', n'', ?_, hinv'⟩
    rw [Runs.run, ht]
    exact hu

/-- When the writer is idle everything that was pushed has been put out. -/
theorem Inv.done (h : Inv file size s mem n) (hfree : s.stream.writing = false) :
    s.puts.length = s.reader.pushed.length := by
  obtain ⟨-, -, hputs⟩ := h.settled_of_free hfree
  have hwritten := congrArg List.length h.chunks.order
  rw [h.stream.idle hfree, List.append_nil, h.chunks.written] at hwritten
  rw [hputs, hwritten]

theorem Inv.finished (h : Inv file size s mem n) (hfinishes : s.finishes ≠ 0) :
    s.finishes = 1 ∧ s.reader.closed = true ∧ s.puts.length = s.reader.pushed.length := by
  have hsum := h.flow.finishes
  by_cases hclosed : s.reader.closed = true
  · rw [hclosed, if_pos rfl] at hsum
    have howed : owed s.stream = 0 := by omega
    have hfree : s.stream.writing = false := by
      by_contra hbusy
      rw [Bool.not_eq_false] at hbusy
      rw [owed, if_pos ⟨h.flow.ended.trans hclosed, .inl hbusy⟩] at howed
      omega
    exact ⟨by omega, hclosed, h.done hfree⟩
  · rw [if_neg hclosed] at hsum
    omega

theorem Inv.puts_le (h : Inv file size s mem n) : s.puts.length ≤ s.reader.stored.length := by
  by_contra hlt
  have hlast : s.puts.length - 1 ∈ s.puts.map Put.index := by
    rw [h.chunks.indices, List.mem_range]
    omega
  obtain ⟨p, hp, hindex⟩ := List.mem_map.mp hlast
  have := h.chunks.reads p hp
  omega

theorem map_getD_range {l : List (List UInt8)} {k : Nat} (hk : k ≤ l.length) :
    (List.range k).map (fun i => l.getD i []) = l.take k := by
  apply List.ext_getElem
  · rw [List.length_map, List.length_range, List.length_take, Nat.min_eq_left hk]
  · intro i hi _
    rw [List.length_map, List.length_range] at hi
    rw [List.getElem_map, List.getElem_range, List.getElem_take]
    exact List.getD_eq_getElem l [] (by omega)

end

/-- A copy is the file as far as it goes if each chunk was written, all of it, before the next one was read; and it is
all of it when the writer has finished. -/
theorem copy_faithful (junk : Nat → Nat → UInt8) (file : List UInt8) {size : Nat} (hsize : 0 < size) {as : List Act}
    (hallowed : Meets (step junk file) (Allowed file) (start junk size) as) :
    ∃ s, run (step junk file) (start junk size) as = some s ∧
      ((∀ p ∈ s.puts, p.reads = p.index + 1 ∧ p.result = some (s.reader.stored.getD p.index []).length) →
        s.output <+: file ∧ (s.finishes = 1 → s.output = file)) := by
  obtain ⟨s, mem, n, hs, h⟩ := (Inv.start junk hsize).run junk hallowed
  refine ⟨s, hs, fun hsteps => ?_⟩
  have hbytes : ∀ p ∈ s.puts, p.bytes s.reader.stored = s.reader.stored.getD p.index [] := by
    intro p hp
    obtain ⟨hreads, hresult⟩ := hsteps p hp
    have hnone : (s.reader.stored.take (p.index + 1)).drop (p.index + 1) = [] := by
      rw [List.drop_eq_nil_iff, List.length_take]
      omega
    rw [Put.bytes, shown, hreads, hnone, List.foldl_nil, hresult, Option.getD_some, List.take_length]
  have houtput : s.output = (s.reader.stored.take s.puts.length).flatten := by
    rw [h.chunks.output, List.map_congr_left hbytes, ← map_getD_range h.puts_le, ← h.chunks.indices, List.map_map]
    rfl
  refine ⟨?_, fun hfinishes => ?_⟩
  · have hprefix : s.output <+: s.reader.stored.flatten := by
      rw [houtput]
      exact (List.take_prefix _ _).flatten
    rw [h.chunks.reader.stored] at hprefix
    exact hprefix.trans (List.take_prefix _ _)
  · obtain ⟨-, hclosed, hputs⟩ := h.finished (by omega)
    obtain ⟨hstored, hfile⟩ := h.chunks.reader.complete hclosed
    rw [houtput, hputs, ← hstored, List.take_length, hfile]

/-- The two bytes are written in time. -/
theorem earlyWrites_faithful : ∃ s, run (step (fun _ _ => 0) [7, 8]) (start (fun _ _ => 0) 4)
    [.read 1, .onRead, .ret, .write 1, .onWrite, .returns, .read 1, .onRead, .ret, .write 1, .onWrite, .returns,
      .read 0, .onRead, .returns] = some s ∧ s.output = [7, 8] := by
  obtain ⟨s, hs, hfaithful⟩ := copy_faithful (fun _ _ => 0) [7, 8] (by decide : 0 < 4)
    (show Meets _ (Allowed [7, 8]) _ [.read 1, .onRead, .ret, .write 1, .onWrite, .returns, .read 1, .onRead, .ret,
      .write 1, .onWrite, .returns, .read 0, .onRead, .returns] by decide)
  refine ⟨s, hs, ?_⟩
  obtain rfl := Option.some.inj hs
  exact (hfaithful (by decide)).2 rfl

end Nodeoze.Fs.Copying
