import Nodeoze.Buffer.Filling
import Nodeoze.Lib.Runs

/-!
# Reading a file as a stream

An `fs_reader` has one buffer and one request for libuv.  `really_really_read` has libuv read into the
memory of the buffer: a thread of its pool calls `read`, and the loop calls `on_read` later on.  There
the buffer is cut to what was read and pushed, and the next read is started unless the reader is paused by
then.  Listeners of `data` get copies of the buffer; its policy is `copy_on_write`.

`really_read` and `really_pause` are called by the program: when the first listener of `data` comes, when
the last one goes, and by the listeners that `pipe` has installed.  A request that is used again
before it is done, and a read from the descriptor after it was closed, are undefined.  The file does not
change while it is read, and no listener runs the loop.
-/

namespace Nodeoze.Fs.Reader

open RefHeap Splice Runs Buffer

/-- `m_read_req`: a read has been asked for, or it has been done and `on_read` is due; an error is `none`. -/
inductive Request
  | idle
  | queued (len : Nat)
  | done (result : Option Nat)
  deriving DecidableEq, Repr

def Request.queued? : Request → Option Nat
  | .queued len => some len
  | _ => none

def Request.isDone : Request → Bool
  | .done _ => true
  | _ => false

/-- `pushing` is whether `on_read` is in `push`, `pos` the position of the descriptor, `stored` what the
reads have stored in the buffer, `pushed` what the events of `data` have shown, and `kept` are the copies that
the program has of it. -/
structure State where
  heap : Heap
  paused : Bool
  request : Request
  pushing : Bool
  pos : Nat
  closed : Bool
  stored : List (List UInt8)
  pushed : List (List UInt8)
  ends : Nat
  errors : Nat
  kept : List Nat

inductive Act
  | resume
  | pause
  | perform (n : Nat)
  | fail
  | callback (copies : Nat)
  | ret
  | copy (i : Nat)
  | release (i : Nat)
  deriving DecidableEq, Repr

/-- `m_read_buf` -/
def readBuf : Nat := 0

section

variable (junk : Nat → Nat → UInt8)

/-- `fs_reader( options )`; the size of the buffer is 16384 in the source. -/
def start (size : Nat) : State where
  heap := allocate junk RefHeap.empty size .copyOnWrite
  paused := true
  request := .idle
  pushing := false
  pos := 0
  closed := false
  stored := []
  pushed := []
  ends := 0
  errors := 0
  kept := []

def reallyReallyRead (s : State) : Option State :=
  match s.request, s.closed with
  | .idle, false => do
    let h ← s.heap.bufs readBuf
    pure { s with request := .queued h.size }
  | _, _ => none

def reallyRead (s : State) : Option State := reallyReallyRead { s with paused := false }

def reallyPause (s : State) : State := { s with paused := true }

/-- `on_read`, up to a `push`. -/
def onRead (s : State) (copies : Nat) : Option State :=
  match s.request with
  | .done (some 0) => some { s with request := .idle, closed := true, ends := s.ends + 1 }
  | .done (some n) => do
    let H ← cut junk s.heap readBuf n copies
    let bytes ← H.content readBuf
    pure { s with
      heap := H
      request := .idle
      pushing := true
      pushed := s.pushed ++ [bytes]
      kept := s.kept ++ List.range' s.heap.slots copies }
  | .done none => some { s with request := .idle, errors := s.errors + 1 }
  | _ => none

/-- The rest of `on_read` after a `push`. -/
def afterPush (s : State) : Option State :=
  if s.paused then some { s with pushing := false } else reallyReallyRead { s with pushing := false }

variable (file : List UInt8)

/-- A thread has read `n` bytes into the memory of the buffer. -/
def perform (s : State) (n : Nat) : Option State :=
  match s.request with
  | .queued _ => do
    let bytes := (file.drop s.pos).take n
    let H ← rputn s.heap readBuf 0 bytes
    pure { s with
      heap := H
      request := .done (some n)
      pos := s.pos + n
      stored := if n = 0 then s.stored else s.stored ++ [bytes] }
  | _ => none

def step (s : State) : Act → Option State
  | .resume => reallyRead s
  | .pause => some (reallyPause s)
  | .perform n => perform file s n
  | .fail => some { s with request := .done none }
  | .callback copies => onRead junk s copies
  | .ret => afterPush s
  | .copy i => do
    let H ← adopt s.heap i
    pure { s with heap := H, kept := s.kept ++ [s.heap.slots] }
  | .release i => some { s with heap := s.heap.detach i, kept := s.kept.filter (· ≠ i) }

/-- How many bytes a `read` may return: none only at the end of the file. -/
def Readable (s : State) (n : Nat) : Prop :=
  ∃ len ∈ s.request.queued?, n ≤ min len (file.length - s.pos) ∧ (n = 0 → min len (file.length - s.pos) = 0)

/-- What the kernel, libuv and `on_read` may do next, and that the program has the copies that it uses. -/
def Enabled (s : State) : Act → Prop
  | .perform n => Readable file s n
  | .fail => s.request.queued? ≠ none
  | .callback _ => s.request.isDone = true ∧ s.pushing = false
  | .ret => s.pushing = true
  | .copy i => i ∈ s.kept
  | .release i => i ∈ s.kept
  | .resume => True
  | .pause => True

/-- What a `pipe` to one destination does: its listener of `data` pauses the reader, and reads go on when
the destination has drained. -/
def Piped (s : State) : Act → Prop
  | .pause => s.pushing = true
  | .resume => s.paused = true ∧ s.pushing = false
  | _ => True

def Allowed (s : State) (a : Act) : Prop := Enabled file s a ∧ Piped s a

instance (s : State) : ∀ a, Decidable (Enabled file s a)
  | .perform n => inferInstanceAs (Decidable (∃ len ∈ s.request.queued?, n ≤ min len (file.length - s.pos) ∧
      (n = 0 → min len (file.length - s.pos) = 0)))
  | .fail => inferInstanceAs (Decidable (s.request.queued? ≠ none))
  | .callback _ => inferInstanceAs (Decidable (s.request.isDone = true ∧ s.pushing = false))
  | .ret => inferInstanceAs (Decidable (s.pushing = true))
  | .copy i => inferInstanceAs (Decidable (i ∈ s.kept))
  | .release i => inferInstanceAs (Decidable (i ∈ s.kept))
  | .resume => isTrue trivial
  | .pause => isTrue trivial

instance (s : State) : ∀ a, Decidable (Piped s a)
  | .pause => inferInstanceAs (Decidable (s.pushing = true))
  | .resume => inferInstanceAs (Decidable (s.paused = true ∧ s.pushing = false))
  | .perform _ | .fail | .callback _ | .ret | .copy _ | .release _ => isTrue trivial

instance (s : State) (a : Act) : Decidable (Allowed file s a) :=
  inferInstanceAs (Decidable (Enabled file s a ∧ Piped s a))

end

/-! ## The states of a reader in a pipe -/

/-- Where the reader is, with `n` bytes of its buffer in use. -/
inductive Control (n : Nat) : Bool → Bool → Request → Bool → Nat → Prop
  | reading : Control n false false (.queued n) false 0
  | read {k : Nat} : k ≤ n → Control n false false (.done (some k)) false 0
  | failing : Control n false false (.done none) false 0
  | pushing {paused : Bool} : Control n paused true .idle false 0
  | paused : Control n true false .idle false 0
  | ended : Control n false false .idle true 0
  | failed : Control n false false .idle false 1

/-- What has been read and not been pushed. -/
def unpushed (mem : List UInt8) : Request → List (List UInt8)
  | .done (some (k + 1)) => [mem.take (k + 1)]
  | _ => []

structure Inv (file : List UInt8) (size : Nat) (s : State) (mem : List UInt8) (n : Nat) : Prop where
  buffer : Fronts s.heap readBuf 0 .copyOnWrite mem 0 n
  pos : 0 < n
  control : Control n s.paused s.pushing s.request s.closed s.errors
  stored : s.stored.flatten = file.take s.pos
  le : s.pos ≤ file.length
  pushed : s.stored = s.pushed ++ unpushed mem s.request
  finished : s.request = .done (some 0) ∨ s.closed = true → s.pos = file.length
  ends : s.ends = if s.closed then 1 else 0
  chunks : (size :: s.pushed.map List.length).Pairwise (· ≥ ·)
  last : ∀ len ∈ size :: s.pushed.map List.length, n ≤ len
  kept : ∀ j ∈ s.kept, j ≠ readBuf ∧ ∃ h, s.heap.bufs j = some h ∧ h.blk = 0

/-- What acts do to the copies that are there, and to the memory that they show. -/
structure Follows (as : List Act) (s : State) (mem : List UInt8) (t : State) (mem' : List UInt8) : Prop where
  slots : s.heap.slots ≤ t.heap.slots
  bufs : ∀ j, j ≠ readBuf → j < s.heap.slots → Act.release j ∉ as → t.heap.bufs j = s.heap.bufs j
  length : mem'.length = mem.length
  stored : ∃ new, t.stored = s.stored ++ new ∧ ∀ k ≤ mem.length, mem'.take k = new.foldl overlay (mem.take k)

section

variable (junk : Nat → Nat → UInt8) {file : List UInt8} {size : Nat} {s t u : State} {as bs : List Act}
  {mem mem' mem'' : List UInt8} {n : Nat}

theorem Follows.refl (s : State) (mem : List UInt8) : Follows [] s mem s mem :=
  ⟨Nat.le_refl _, fun _ _ _ _ => rfl, rfl, [], (List.append_nil _).symm, fun _ _ => rfl⟩

theorem Follows.trans (h : Follows as s mem t mem') (h' : Follows bs t mem' u mem'') :
    Follows (as ++ bs) s mem u mem'' where
  slots := h.slots.trans h'.slots
  bufs j hj hlt hrel := by
    rw [List.mem_append, not_or] at hrel
    exact (h'.bufs j hj (Nat.lt_of_lt_of_le hlt h.slots) hrel.2).trans (h.bufs j hj hlt hrel.1)
  length := h'.length.trans h.length
  stored := by
    obtain ⟨new, hnew, hfront⟩ := h.stored
    obtain ⟨new', hnew', hfront'⟩ := h'.stored
    refine ⟨new ++ new', by rw [hnew', hnew, List.append_assoc], fun k hk => ?_⟩
    rw [hfront' k (h.length ▸ hk), hfront k hk, List.foldl_append]

theorem Inv.start (hsize : 0 < size) : Inv file size (start junk size) (malloc junk 0 size) size := by
  have hwf : (allocate junk RefHeap.empty size .copyOnWrite).WF fun _ => False :=
    WF.empty.push.attach Nat.one_pos rfl _ _
  refine ⟨⟨hwf, ?_, ⟨1, ?_⟩, ?_⟩, hsize, .paused, rfl, Nat.zero_le _, rfl, ?_, rfl, ?_, ?_, ?_⟩
  · exact (attach_bufs _ _).trans (by rw [length_malloc]; rfl)
  · exact attach_blks _ _
  · rw [length_malloc]
  · rintro (h | h) <;> contradiction
  · exact List.pairwise_singleton _ _
  · intro len hlen
    rw [List.mem_singleton.mp hlen]
  · exact fun j hj => nomatch hj

/-- An act that leaves the buffer as it is. -/
theorem Follows.of_same {a : Act} (hheap : t.heap = s.heap) (hstored : t.stored = s.stored) :
    Follows [a] s mem t mem :=
  ⟨hheap ▸ Nat.le_refl _, fun _ _ _ _ => by rw [hheap], rfl, [], by rw [hstored, List.append_nil], fun _ _ => rfl⟩

/-! ## Acts -/

theorem Control.of_pushing {paused closed : Bool} {r : Request} {errors : Nat}
    (h : Control n paused true r closed errors) : r = .idle ∧ closed = false ∧ errors = 0 := by
  cases h
  exact ⟨rfl, rfl, rfl⟩

theorem Control.of_paused {closed : Bool} {r : Request} {errors : Nat} (h : Control n true false r closed errors) :
    r = .idle ∧ closed = false ∧ errors = 0 := by
  cases h
  exact ⟨rfl, rfl, rfl⟩

theorem Control.of_queued {paused pushing closed : Bool} {len errors : Nat}
    (h : Control n paused pushing (.queued len) closed errors) :
    paused = false ∧ pushing = false ∧ closed = false ∧ errors = 0 ∧ len = n := by
  cases h
  exact ⟨rfl, rfl, rfl, rfl, rfl⟩

theorem Control.of_done {paused pushing closed : Bool} {r : Option Nat} {errors : Nat}
    (h : Control n paused pushing (.done r) closed errors) :
    paused = false ∧ pushing = false ∧ closed = false ∧ errors = 0 ∧ ∀ k ∈ r, k ≤ n := by
  cases h with
  | read hk => exact ⟨rfl, rfl, rfl, rfl, fun _ hr => (Option.some.inj hr) ▸ hk⟩
  | failing => exact ⟨rfl, rfl, rfl, rfl, fun _ hr => nomatch hr⟩

theorem Control.of_closed {paused pushing : Bool} {r : Request} {errors : Nat}
    (h : Control n paused pushing r true errors) : r = .idle := by
  cases h
  rfl

theorem Control.of_idle {closed : Bool} {errors : Nat} (h : Control n false false .idle closed errors) :
    closed = true ∨ errors = 1 := by
  cases h with
  | ended => exact .inl rfl
  | failed => exact .inr rfl

/-- What an act does. -/
def Does (junk : Nat → Nat → UInt8) (file : List UInt8) (size : Nat) (s : State) (mem : List UInt8) (a : Act) : Prop :=
  ∃ t mem' n', step junk file s a = some t ∧ Inv file size t mem' n' ∧ Follows [a] s mem t mem'

/-- The reader goes on to another state with nothing read. -/
theorem Inv.moves (h : Inv file size s mem n) (paused pushing : Bool) (r : Request)
    (hcontrol : Control n paused pushing r s.closed s.errors) (hpushed : unpushed mem r = unpushed mem s.request)
    (hfinished : r ≠ .done (some 0)) :
    Inv file size { s with paused := paused, pushing := pushing, request := r } mem n :=
  { h with
    control := hcontrol
    pushed := by rw [hpushed]; exact h.pushed
    finished := fun heof => h.finished (.inr (heof.resolve_left hfinished)) }

/-- A read is started. -/
theorem Inv.reads (h : Inv file size s mem n) (hidle : s.request = .idle) (hopen : s.closed = false)
    (herrors : s.errors = 0) :
    reallyReallyRead { s with paused := false, pushing := false }
        = some { s with paused := false, pushing := false, request := .queued n } ∧
      Inv file size { s with paused := false, pushing := false, request := .queued n } mem n := by
  constructor
  · unfold reallyReallyRead
    simp only [hidle, hopen, h.buffer.buf, Option.bind_eq_bind, Option.bind_some]
    rfl
  · refine h.moves false false (.queued n) ?_ ?_ fun heq => nomatch heq
    · rw [hopen, herrors]
      exact .reading
    · rw [hidle]
      rfl

theorem Inv.resume (h : Inv file size s mem n) (hpiped : Piped s .resume) : Does junk file size s mem .resume := by
  obtain ⟨hpaused, hpushing⟩ := hpiped
  have hcontrol := h.control
  rw [hpaused, hpushing] at hcontrol
  obtain ⟨hidle, hopen, herrors⟩ := hcontrol.of_paused
  obtain ⟨hread, hinv⟩ := h.reads hidle hopen herrors
  refine ⟨_, mem, n, ?_, hinv, .of_same rfl rfl⟩
  rw [step, reallyRead, ← hread, hpushing]

theorem Inv.pauses (h : Inv file size s mem n) (hpushing : s.pushing = true) : Inv file size (reallyPause s) mem n := by
  have hcontrol := h.control
  rw [hpushing] at hcontrol
  obtain ⟨hidle, hopen, herrors⟩ := hcontrol.of_pushing
  refine h.moves true s.pushing s.request ?_ rfl ?_
  · rw [hpushing, hidle, hopen, herrors]
    exact .pushing
  · rw [hidle]
    exact fun heq => nomatch heq

theorem Inv.pause (h : Inv file size s mem n) (hpiped : Piped s .pause) : Does junk file size s mem .pause :=
  ⟨_, mem, n, rfl, h.pauses hpiped, .of_same rfl rfl⟩

/-- A push is over. -/
theorem Inv.returns (h : Inv file size s mem n) (hpushing : s.pushing = true) :
    afterPush s = some { s with pushing := false, request := if s.paused then .idle else .queued n } ∧
      Inv file size { s with pushing := false, request := if s.paused then .idle else .queued n } mem n := by
  have hcontrol := h.control
  rw [hpushing] at hcontrol
  obtain ⟨hidle, hopen, herrors⟩ := hcontrol.of_pushing
  by_cases hpaused : s.paused = true
  · rw [afterPush, if_pos hpaused, if_pos hpaused, ← hidle]
    refine ⟨rfl, h.moves s.paused false s.request ?_ rfl ?_⟩
    · rw [hpaused, hidle, hopen, herrors]
      exact .paused
    · rw [hidle]
      exact fun heq => nomatch heq
  · rw [Bool.not_eq_true] at hpaused
    obtain ⟨hread, hinv⟩ := h.reads hidle hopen herrors
    have hsame : ∀ r, ({ s with paused := false, pushing := false, request := r } : State)
        = { s with pushing := false, request := r } := by
      intro r
      rw [← hpaused]
    rw [hsame (.queued n)] at hread hinv
    rw [hsame s.request] at hread
    rw [afterPush, if_neg (by rw [hpaused]; decide), if_neg (by rw [hpaused]; decide)]
    exact ⟨hread, hinv⟩

theorem Inv.ret (h : Inv file size s mem n) (hpushing : s.pushing = true) : Does junk file size s mem .ret := by
  obtain ⟨hret, hinv⟩ := h.returns hpushing
  exact ⟨_, mem, n, hret, hinv, .of_same rfl rfl⟩

theorem Request.of_queued? {r : Request} {len : Nat} (h : len ∈ r.queued?) : r = .queued len := by
  cases r with
  | idle => contradiction
  | queued len' => rw [Option.some.inj h]
  | done _ => contradiction

theorem Inv.fails (h : Inv file size s mem n) {len : Nat} (hqueued : s.request = .queued len) :
    Inv file size { s with request := .done none } mem n := by
  have hcontrol := h.control
  rw [hqueued] at hcontrol
  obtain ⟨hpaused, hpushing, hopen, herrors, -⟩ := hcontrol.of_queued
  refine h.moves s.paused s.pushing (.done none) ?_ ?_ fun heq => nomatch heq
  · rw [hpaused, hpushing, hopen, herrors]
    exact .failing
  · rw [hqueued]
    rfl

theorem Inv.fail (h : Inv file size s mem n) (hqueued : s.request.queued? ≠ none) :
    Does junk file size s mem .fail := by
  obtain ⟨len, hlen⟩ := Option.ne_none_iff_exists'.mp hqueued
  exact ⟨_, mem, n, rfl, h.fails (Request.of_queued? hlen), .of_same rfl rfl⟩

/-- The kernel stores a chunk at the front of the buffer, or nothing at the end of the file. -/
theorem Inv.performs (h : Inv file size s mem n) {k : Nat} (hread : Readable file s k) :
    ∃ H pos stored mem' t, t = { s with heap := H, request := .done (some k), pos := pos, stored := stored } ∧
      Reader.perform file s k = some t ∧ Inv file size t mem' n ∧ Follows [.perform k] s mem t mem' ∧
      (stored = s.stored ∧ mem' = mem ∨
        ∃ bytes, stored = s.stored ++ [bytes] ∧ bytes.length ≤ mem.length ∧ mem'.take bytes.length = bytes) := by
  obtain ⟨len, hlen, hk, heof⟩ := hread
  have hqueued := Request.of_queued? hlen
  have hcontrol := h.control
  rw [hqueued] at hcontrol
  obtain ⟨hpaused, hpushing, hopen, herrors, rfl⟩ := hcontrol.of_queued
  have hpos := h.pos
  have hlength : ((file.drop s.pos).take k).length = k := by
    rw [List.length_take, List.length_drop]
    omega
  have hstored : file.take (s.pos + k) = s.stored.flatten ++ (file.drop s.pos).take k := by
    rw [h.stored, List.take_add]
  have hcontrol' : Control len s.paused s.pushing (.done (some k)) s.closed s.errors := by
    rw [hpaused, hpushing, hopen, herrors]
    exact .read (by omega)
  have hpushed : s.stored = s.pushed := by
    rw [h.pushed, hqueued]
    exact List.append_nil _
  by_cases hzero : k = 0
  · obtain rfl := hzero
    have hwrite : rputn s.heap readBuf 0 [] = some s.heap := by simp [rputn, h.buffer.buf, RefHeap.write]
    refine ⟨s.heap, s.pos, s.stored, mem, _, rfl, ?_, ?_, .of_same rfl rfl, .inl ⟨rfl, rfl⟩⟩
    · simp only [Reader.perform, hqueued, List.take_zero, hwrite, Option.bind_eq_bind, Option.bind_some, if_true]
      rfl
    · exact
        { h with
          control := hcontrol'
          pushed := hpushed.trans (List.append_nil _).symm
          finished := fun _ => by
            have := heof rfl
            have := h.le
            change s.pos = _
            omega }
  · have hbytes : (file.drop s.pos).take k ≠ [] := List.ne_nil_of_length_pos (by omega)
    obtain ⟨H, hH, hbuffer, ho⟩ := h.buffer.rputn hbytes (by omega)
    have hle := h.buffer.le
    have hmem : (splice mem 0 ((file.drop s.pos).take k)).length = mem.length := length_splice _ _ _ (by omega)
    have htake := splice_zero_take mem ((file.drop s.pos).take k)
    have hunpushed : unpushed (splice mem 0 ((file.drop s.pos).take k)) (.done (some k)) =
        [(file.drop s.pos).take k] := by
      obtain ⟨m, rfl⟩ := Nat.exists_eq_succ_of_ne_zero hzero
      rw [hlength] at htake
      rw [Nat.succ_eq_add_one, unpushed, htake]
    refine ⟨H, s.pos + k, s.stored ++ [(file.drop s.pos).take k], _, _, rfl, ?_, ?_,
      ⟨ho.slots.ge, ?_, hmem, _, rfl, ?_⟩, .inr ⟨_, rfl, by omega, htake⟩⟩
    · simp only [Reader.perform, hqueued, hH, Option.bind_eq_bind, Option.bind_some, if_neg hzero]
      rfl
    · exact
        { h with
          buffer := hbuffer
          control := hcontrol'
          stored := by rw [List.flatten_append, List.flatten_singleton, hstored]
          le := by
            have := h.le
            change s.pos + k ≤ _
            omega
          pushed := by rw [hunpushed, hpushed]
          finished := by
            rintro (heq | hclosed)
            · exact absurd (Option.some.inj (Request.done.inj heq)) hzero
            · exact absurd (hopen.symm.trans hclosed) (by decide)
          kept := fun j hj => by
            obtain ⟨hne, hb⟩ := h.kept j hj
            rw [ho.bufs j hne]
            exact ⟨hne, hb⟩ }
    · exact fun j hj _ _ => ho.bufs j hj
    · exact fun m hm => take_overlay hm

theorem Inv.perform (h : Inv file size s mem n) {k : Nat} (hread : Readable file s k) :
    Does junk file size s mem (.perform k) := by
  obtain ⟨H, pos, stored, mem', t, -, ht, hinv, hfollows, -⟩ := h.performs hread
  exact ⟨t, mem', n, ht, hinv, hfollows⟩

theorem Inv.lt_slots (h : Inv file size s mem n) {j : Nat} (hj : j ∈ s.kept) : j < s.heap.slots := by
  obtain ⟨-, k, hk, -⟩ := h.kept j hj
  exact h.buffer.wf.lt_slots hk

/-- `on_read` pushes what was read, and listeners keep copies of it. -/
theorem Inv.pushes (h : Inv file size s mem n) {k : Nat} (hdone : s.request = .done (some (k + 1))) (copies : Nat) :
    ∃ H t, t = { s with
        heap := H
        request := .idle
        pushing := true
        pushed := s.pushed ++ [mem.take (k + 1)]
        kept := s.kept ++ List.range' s.heap.slots copies } ∧
      onRead junk s copies = some t ∧ Inv file size t mem (k + 1) ∧ H.slots = s.heap.slots + copies ∧
      (∀ l ∈ List.range' s.heap.slots copies, H.bufs l = some ⟨0, front 0 mem 0, k + 1⟩) ∧
      ∀ j, j ≠ readBuf → j < s.heap.slots → H.bufs j = s.heap.bufs j := by
  have hcontrol := h.control
  rw [hdone] at hcontrol
  obtain ⟨-, -, hopen, herrors, hk⟩ := hcontrol.of_done
  have hkn := hk (k + 1) rfl
  have hle := h.buffer.le
  obtain ⟨H, hH, hbuffer, hslots, hnew, hold⟩ := h.buffer.cut junk (by decide) hkn copies
  have hcontent : H.content readBuf = some (mem.take (k + 1)) := by
    rw [hbuffer.content (List.ne_nil_of_length_pos (by omega)) (Nat.succ_pos k) hbuffer.buf,
      if_pos ⟨rfl, by omega⟩]
  refine ⟨H, _, rfl, ?_, ?_, hslots, hnew, hold⟩
  · unfold onRead
    simp only [hdone, hH, hcontent, Option.bind_eq_bind, Option.bind_some]
    rfl
  · have hlength : (mem.take (k + 1)).length = k + 1 := by
      rw [List.length_take]
      omega
    have hchunks : size :: (s.pushed ++ [mem.take (k + 1)]).map List.length
        = (size :: s.pushed.map List.length) ++ [k + 1] := by
      rw [List.map_append, List.map_singleton, hlength, List.cons_append]
    exact
      { h with
        buffer := hbuffer
        pos := Nat.succ_pos k
        control := by
          change Control (k + 1) s.paused true .idle s.closed s.errors
          rw [hopen, herrors]
          exact .pushing
        pushed := by
          rw [h.pushed, hdone]
          exact (List.append_nil _).symm
        finished := by
          rintro (heq | hclosed)
          · exact nomatch heq
          · exact h.finished (.inr hclosed)
        chunks := by
          rw [hchunks, List.pairwise_append]
          refine ⟨h.chunks, List.pairwise_singleton _ _, fun len hlen m hm => ?_⟩
          rw [List.mem_singleton.mp hm]
          exact hkn.trans (h.last len hlen)
        last := by
          rw [hchunks]
          intro len hlen
          rcases List.mem_append.mp hlen with hlen | hlen
          · exact hkn.trans (h.last len hlen)
          · exact (List.mem_singleton.mp hlen).ge
        kept := by
          intro j hj
          rcases List.mem_append.mp hj with hj | hj
          · obtain ⟨hne, hb⟩ := h.kept j hj
            refine ⟨hne, ?_⟩
            change ∃ h, H.bufs j = some h ∧ _
            rwa [hold j hne (h.lt_slots hj)]
          · have hslot := h.buffer.wf.lt_slots h.buffer.buf
            refine ⟨?_, _, hnew j hj, rfl⟩
            rw [List.mem_range'_1] at hj
            omega }

theorem onRead_pushed {copies : Nat} (h : onRead junk s copies = some t) (hr : ∀ k, s.request ≠ .done (some (k + 1))) :
    t.pushed = s.pushed := by
  unfold onRead at h
  split at h
  · rw [← Option.some.inj h]
  · rename_i k hne heq
    obtain ⟨m, rfl⟩ := Nat.exists_eq_succ_of_ne_zero hne
    exact absurd heq (hr m)
  · rw [← Option.some.inj h]
  · contradiction

/-- The end of the file. -/
theorem Inv.closes (h : Inv file size s mem n) (hdone : s.request = .done (some 0)) :
    Inv file size { s with request := .idle, closed := true, ends := s.ends + 1 } mem n := by
  have hcontrol := h.control
  rw [hdone] at hcontrol
  obtain ⟨hpaused, hpushing, hopen, herrors, -⟩ := hcontrol.of_done
  have hends := h.ends
  rw [hopen, if_neg (by decide)] at hends
  exact
    { h with
      control := by
        change Control n s.paused s.pushing .idle true s.errors
        rw [hpaused, hpushing, herrors]
        exact .ended
      pushed := by rw [h.pushed, hdone]; rfl
      finished := fun _ => h.finished (.inl hdone)
      ends := by
        change s.ends + 1 = 1
        rw [hends] }

/-- A read has failed. -/
theorem Inv.errs (h : Inv file size s mem n) (hdone : s.request = .done none) :
    Inv file size { s with request := .idle, errors := s.errors + 1 } mem n := by
  have hcontrol := h.control
  rw [hdone] at hcontrol
  obtain ⟨hpaused, hpushing, hopen, herrors, -⟩ := hcontrol.of_done
  exact
    { h with
      control := by
        change Control n s.paused s.pushing .idle s.closed (s.errors + 1)
        rw [hpaused, hpushing, hopen, herrors]
        exact .failed
      pushed := by rw [h.pushed, hdone]; rfl
      finished := fun heof => h.finished (.inr (heof.resolve_left fun heq => nomatch heq)) }

theorem Inv.callback (h : Inv file size s mem n) {copies : Nat} (henabled : Enabled file s (.callback copies)) :
    Does junk file size s mem (.callback copies) := by
  obtain ⟨hdone, -⟩ := henabled
  cases hr : s.request with
  | idle =>
    rw [hr] at hdone
    contradiction
  | queued len =>
    rw [hr] at hdone
    contradiction
  | done result =>
    cases result with
    | none =>
      refine ⟨{ s with request := .idle, errors := s.errors + 1 }, mem, n, ?_, h.errs hr, .of_same rfl rfl⟩
      rw [step, onRead, hr]
    | some k =>
      cases k with
      | zero =>
        refine ⟨{ s with request := .idle, closed := true, ends := s.ends + 1 }, mem, n, ?_, h.closes hr,
          .of_same rfl rfl⟩
        rw [step, onRead, hr]
        rfl
      | succ k =>
        obtain ⟨H, t, rfl, ht, hinv, hslots, -, hold⟩ := h.pushes junk hr copies
        refine ⟨_, mem, k + 1, ht, hinv, ?_, fun j hj hlt _ => hold j hj hlt, rfl, [], (List.append_nil _).symm,
          fun _ _ => rfl⟩
        change s.heap.slots ≤ H.slots
        omega

theorem Inv.copy (h : Inv file size s mem n) {i : Nat} (hi : i ∈ s.kept) : Does junk file size s mem (.copy i) := by
  obtain ⟨-, k, hk, hblk⟩ := h.kept i hi
  obtain ⟨H, hH, hbuffer, hslots, hnew, hold⟩ := h.buffer.adopt (by decide) hk hblk
  have hslot := h.buffer.wf.lt_slots h.buffer.buf
  refine ⟨{ s with heap := H, kept := s.kept ++ [s.heap.slots] }, mem, n, ?_, ?_, ⟨?_, ?_, rfl, [], ?_, fun _ _ => rfl⟩⟩
  · rw [step, hH]
    rfl
  · exact
      { h with
        buffer := hbuffer
        kept := by
          intro j hj
          change j ≠ readBuf ∧ ∃ h, H.bufs j = some h ∧ _
          rcases List.mem_append.mp hj with hj | hj
          · have := h.lt_slots hj
            rw [hold j (by omega)]
            exact h.kept j hj
          · obtain rfl := List.mem_singleton.mp hj
            exact ⟨by omega, k, hnew, hblk⟩ }
  · change s.heap.slots ≤ H.slots
    omega
  · exact fun j _ hlt _ => hold j (by omega)
  · exact (List.append_nil _).symm

theorem Inv.releases (h : Inv file size s mem n) {i : Nat} (hi : i ∈ s.kept) :
    Inv file size { s with heap := s.heap.detach i, kept := s.kept.filter (· ≠ i) } mem n ∧
      Others i s.heap (s.heap.detach i) := by
  obtain ⟨hne, k, hk, -⟩ := h.kept i hi
  obtain ⟨hbuffer, hslots, hold⟩ := h.buffer.detach hk hne
  refine ⟨?_, hslots, hold⟩
  exact
    { h with
      buffer := hbuffer
      kept := by
        intro j hj
        obtain ⟨hs, hji⟩ := List.mem_filter.mp hj
        change j ≠ readBuf ∧ ∃ h, (s.heap.detach i).bufs j = some h ∧ _
        rw [hold j (by simpa using hji)]
        exact h.kept j hs }

theorem Inv.release (h : Inv file size s mem n) {i : Nat} (hi : i ∈ s.kept) :
    Does junk file size s mem (.release i) := by
  obtain ⟨hinv, hslots, hold⟩ := h.releases hi
  refine ⟨_, mem, n, rfl, hinv, hslots.ge, fun j _ _ hrel => hold j ?_, rfl, [], (List.append_nil _).symm,
    fun _ _ => rfl⟩
  rintro rfl
  exact hrel (List.mem_singleton.mpr rfl)

theorem Inv.does (h : Inv file size s mem n) {a : Act} (ha : Enabled file s a) (hpiped : Piped s a) :
    Does junk file size s mem a := by
  cases a with
  | resume => exact h.resume junk hpiped
  | pause => exact h.pause junk hpiped
  | perform k => exact h.perform junk ha
  | fail => exact h.fail junk ha
  | callback copies => exact h.callback junk ha
  | ret => exact h.ret junk ha
  | copy i => exact h.copy junk ha
  | release i => exact h.release junk ha

/-- At the end of the file all of it has been pushed. -/
theorem Inv.complete (h : Inv file size s mem n) (hclosed : s.closed = true) :
    s.stored = s.pushed ∧ s.stored.flatten = file := by
  have hcontrol := h.control
  rw [hclosed] at hcontrol
  have hpushed := h.pushed
  rw [hcontrol.of_closed] at hpushed
  refine ⟨hpushed.trans (List.append_nil _), ?_⟩
  rw [h.stored, h.finished (.inr hclosed), List.take_length]

/-! ## Runs -/

theorem Inv.run (h : Inv file size s mem n) (hallowed : Meets (step junk file) (Allowed file) s as) :
    ∃ t mem' n', Runs.run (step junk file) s as = some t ∧ Inv file size t mem' n' ∧ Follows as s mem t mem' := by
  induction as generalizing s mem n with
  | nil => exact ⟨s, mem, n, rfl, h, Follows.refl s mem⟩
  | cons a as ih =>
    obtain ⟨⟨ha, hpiped⟩, has⟩ := hallowed
    obtain ⟨t, mem', n', ht, hinv, hfollows⟩ := h.does junk ha hpiped
    obtain ⟨u, mem'', n'', hu, hinv', hfollows'⟩ := ih hinv (has t ht)
    refine ⟨u, mem'', n'', ?_, hinv', hfollows.trans hfollows'⟩
    rw [Runs.run, ht]
    exact hu

end

/-- Two destinations that drain one after the other use the request twice. -/
example : (run (step (fun _ _ => 0) [7, 8]) (start (fun _ _ => 0) 4)
    [.resume, .perform 1, .callback 0, .pause, .pause, .ret, .resume, .resume]).isNone = true := by decide

end Nodeoze.Fs.Reader
