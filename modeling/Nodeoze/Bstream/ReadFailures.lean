import Nodeoze.Bstream.Fetching
import Nodeoze.Bstream.Ibfilebuf

/-!
# Failed reads

`ibfilebuf` on files whose `read` may be short or fail.  An underflow moves `gnext` back to the front of
the window before it reads, and sets `gend` only when it has read: if bytes were in the window and the
`read` fails, they are ahead of `gnext` once more.

If nothing is read from the buffer in such a state, then what a call delivers are the bytes of the file
from the logical position on.
-/

namespace Nodeoze.Bstream

open Posix Partway

/-- What a call of `read` does: it reads what is there, or at most `n + 1` bytes of it, or it fails. -/
inductive Answer
  | whole
  | upTo (n : Nat)
  | fails (e : Errno)
  deriving DecidableEq, Repr

/-- A file that answers the calls of `read` by number.  `reads` is how the calls so far have ended, the
last one first. -/
structure FlakySource extends FileSource where
  answers : Nat → Answer
  reads : List (Option Errno)

abbrev FlakyIn := Ibstreambuf FlakySource

namespace FlakySource

/-- `ibfilebuf( buffer_size )` -/
def create (world : World String) (size : Nat) (answers : Nat → Answer) : FlakyIn :=
  ⟨0, 0, 0, ⟨⟨world, [], size, "", none⟩, answers, []⟩⟩

def setFd (s : FlakyIn) (fd : Option OpenFile) : FlakyIn := { s with dev := { s.dev with fd := fd } }

/-- One more call of `read` has ended. -/
def called (s : FlakyIn) (error : Option Errno) : FlakyIn :=
  { s with dev := { s.dev with reads := error :: s.dev.reads } }

/-- The block `bs` is in the window, and `f` is the descriptor behind it. -/
def holding (s : FlakyIn) (bs : List UInt8) (f : OpenFile) : FlakyIn :=
  { s with gend := s.gnext + bs.length
           dev := { s.dev with fd := some f, data := bs ++ s.dev.data.drop bs.length } }

/-- `::read( m_fd, gbase(), m_buf.size() )` and what `load_buffer` makes of it. -/
def loadBuffer : Fetch FlakySource (Except Errno Nat) := do
  let s ← get
  match s.dev.fd with
  | none => do
    set (called s (some .badf))
    pure (.error .badf)
  | some f =>
    match s.dev.answers s.dev.reads.length with
    | .whole => do
      let (bs, f) := s.dev.world.read f s.dev.size
      set (holding (called s none) bs f)
      pure (.ok bs.length)
    | .upTo n => do
      let (bs, f) := s.dev.world.read f (min s.dev.size (n + 1))
      set (holding (called s none) bs f)
      pure (.ok bs.length)
    | .fails e => do
      set (called s (some e))
      pure (.error e)

def reallyUnderflow : Fetch FlakySource (Except Errno Nat) := do
  let s ← get
  Fetch.check (s.gnext = s.gend)
  set { s with gbaseOffset := s.gpos, gnext := 0 }
  loadBuffer

instance : Origin FlakySource where
  load dev off n :=
    if 0 ≤ off ∧ off.toNat + n ≤ dev.data.length then some ((dev.data.drop off.toNat).take n) else none
  reallyUnderflow := reallyUnderflow

/-- Where `lseek` goes from `f`. -/
def destination (s : FlakyIn) (f : OpenFile) : SeekAnchor → Int → Int
  | .current, offset => f.offset + offset
  | .end_, offset => (s.dev.world.seekEnd f).offset + offset
  | .begin, offset => offset

/-- `really_seek`: `lseek` starts from the offset of the descriptor. -/
def seek (where_ : SeekAnchor) (offset : Int) : Fetch FlakySource Int := do
  let s ← get
  match s.dev.fd with
  | none => throw (.errno .badf)
  | some f =>
    let result := destination s f where_ offset
    if result < 0 ∨ maxOffset < result then throw .invalidArgument
    else do
      set { setFd s (some { f with offset := result.toNat }) with
        gbaseOffset := result, gnext := 0, gend := 0 }
      pure result

/-- What is in the window stays there. -/
def close : Fetch FlakySource Unit := modify fun s => setFd s none

/-- `open( filename )`: an open file is closed, and `gbase_offset` is left as it is. -/
def open_ (filename : String) : Fetch FlakySource Unit := do
  modify fun s => { s with dev := { s.dev with filename := filename } }
  close
  let s ← get
  match s.dev.world.open_ filename ⟨false, false, false⟩ with
  | .error e => throw (.errno e)
  | .ok (world, f) =>
    set { s with gnext := 0, gend := 0, dev := { s.dev with world := world, fd := some f } }

end FlakySource

/-! ### Runs -/

inductive SourceOp
  | get
  | peek
  | getn (n : Nat)
  | getnThrowing (n : Nat)
  | seek (where_ : SeekAnchor) (offset : Int)
  | open_ (filename : String)
  | close
  deriving DecidableEq, Repr

/-- What a call tells its caller: bytes, a position and an error; how the calls of `read` that it has
made have ended, the last one first; and what `tell` says after it. -/
structure ReadReport where
  bytes : List UInt8
  position : Option Int
  error : Option ReadFailure
  reads : List (Option Errno)
  tell : Int
  deriving DecidableEq, Repr

namespace SourceOp

/-- The bytes, the position and the error of a call. -/
def call : SourceOp → Fetch FlakySource (List UInt8 × Option Int × Option Errno)
  | .get => do
    let b ← Fetch.get
    pure ([b], none, none)
  | .peek => do
    let b ← Fetch.peek
    pure ([b], none, none)
  | .getn n => do
    let (bs, error) ← Fetch.getn n
    pure (bs, none, error)
  | .getnThrowing n => do
    let bs ← Fetch.getnThrowing n
    pure (bs, none, none)
  | .seek where_ offset => do
    let p ← FlakySource.seek where_ offset
    pure ([], some p, none)
  | .open_ filename => do
    FlakySource.open_ filename
    pure ([], none, none)
  | .close => do
    FlakySource.close
    pure ([], none, none)

def Reads : SourceOp → Prop
  | .get | .peek | .getn _ | .getnThrowing _ => True
  | _ => False

instance (op : SourceOp) : Decidable op.Reads := by
  cases op <;> unfold Reads <;> infer_instance

/-- Whether a descriptor is open after a call. -/
def opens (isOpen : Bool) (r : ReadReport) : SourceOp → Bool
  | .open_ _ => r.error.isNone
  | .close => false
  | _ => isOpen

end SourceOp

namespace FlakySource

/-- What the call tells, and the state after it, whether it fails or not. -/
def step (s : FlakyIn) (op : SourceOp) : ReadReport × FlakyIn :=
  let r := op.call.run s
  let s' := left r
  let reads := s'.dev.reads.take (s'.dev.reads.length - s.dev.reads.length)
  match r with
  | .ok (bs, p, error) _ => (⟨bs, p, error.map .errno, reads, s'.gpos⟩, s')
  | .error e _ => (⟨[], none, some e, reads, s'.gpos⟩, s')

def run (s : FlakyIn) : List SourceOp → List (SourceOp × ReadReport)
  | [] => []
  | op :: ops => (op, (step s op).1) :: run (step s op).2 ops

/-- Bytes are in the window, and the last call of `read` has failed. -/
def Stale (s : FlakyIn) : Prop := s.gend ≠ 0 ∧ s.dev.reads.head?.join ≠ none

instance (s : FlakyIn) : Decidable (Stale s) := inferInstanceAs (Decidable (_ ∧ _))

/-- Nothing is read while the window is stale. -/
def Fresh (s : FlakyIn) (op : SourceOp) : Prop := op.Reads → ¬Stale s

instance (s : FlakyIn) (op : SourceOp) : Decidable (Fresh s op) := inferInstanceAs (Decidable (_ → _))

def FreshRun (s : FlakyIn) : List SourceOp → Prop
  | [] => True
  | op :: ops => Fresh s op ∧ FreshRun (step s op).2 ops

instance FreshRun.decide (s : FlakyIn) : (ops : List SourceOp) → Decidable (FreshRun s ops)
  | [] => isTrue trivial
  | op :: ops => by
    have hrest : Decidable (FreshRun (step s op).2 ops) := FreshRun.decide _ ops
    exact instDecidableAnd

end FlakySource

/-! ### What a call may tell -/

/-- The error of a call that reads is that of the `read` that has failed, if one has, and no assertion
fails. -/
def ReadReport.Honest (op : SourceOp) (r : ReadReport) : Prop :=
  (op.Reads → ∀ e, some e ∈ r.reads ↔ r.error = some (.errno e)) ∧ r.error ≠ some .aborted

/-- What a call on a file may tell when the cursor is at the logical position, and the cursor after it.
That there is nothing more may be told only if `dry`. -/
inductive Cursor.Genuine (disk : Disk String) (dry : Cursor → Prop) (c : Cursor) :
    SourceOp → ReadReport → Cursor → Prop
  | get {b : UInt8} {r : ReadReport} : r.bytes = [b] → r.error = none → c.ahead = .ok b →
    Genuine disk dry c .get r (c.forward 1)
  | peek {b : UInt8} {r : ReadReport} : r.bytes = [b] → r.error = none → c.ahead = .ok b →
    Genuine disk dry c .peek r c
  | past {op : SourceOp} {r : ReadReport} : op = .get ∨ op = .peek → r.bytes = [] →
    r.error = some .pastEnd → dry c → Genuine disk dry c op r c
  | getn {n k : Nat} {r : ReadReport} : k ≤ n → r.bytes = c.range k → (c.range k).length = k →
    (r.error = none ∧ (k = n ∨ dry (c.forward k)) ∨ ∃ e, r.error = some (.errno e)) →
    Genuine disk dry c (.getn n) r (c.forward k)
  | getnThrowing {n k : Nat} {r : ReadReport} : k ≤ n → r.bytes = c.range k →
    (c.range k).length = k → r.error = none → (k = n ∨ dry (c.forward k)) →
    Genuine disk dry c (.getnThrowing n) r (c.forward k)
  /-- The bytes in `dst` are passed over, but the call does not tell how many they are. -/
  | thrown {n k : Nat} {r : ReadReport} {e : Errno} : k ≤ n → r.bytes = [] →
    (c.range k).length = k → r.error = some (.errno e) →
    Genuine disk dry c (.getnThrowing n) r (c.forward k)
  | failed {op : SourceOp} {r : ReadReport} {e : Errno} : r.bytes = [] → r.error = some (.errno e) →
    Genuine disk dry c op r c
  | seek {where_ : SeekAnchor} {offset : Int} {p : Nat} {r : ReadReport} : r.error = none →
    r.position = some p → r.tell = p →
    Genuine disk dry c (.seek where_ offset) r { c with pos := p }
  | invalid {where_ : SeekAnchor} {offset : Int} {r : ReadReport} :
    r.error = some .invalidArgument → Genuine disk dry c (.seek where_ offset) r c
  | opened {filename : String} {bytes : List UInt8} {r : ReadReport} :
    disk.content filename = some bytes → r.error = none →
    Genuine disk dry c (.open_ filename) r ⟨bytes, 0⟩
  | close {r : ReadReport} : r.error = none → Genuine disk dry c .close r c

def Cursor.GenuineRun (disk : Disk String) (dry : Cursor → Prop) :
    Cursor → List (SourceOp × ReadReport) → Prop
  | _, [] => True
  | c, (op, r) :: rest => r.Honest op ∧ ∃ c', c.Genuine disk dry op r c' ∧ GenuineRun disk dry c' rest

namespace FlakySource

/-- What is left of the window is what comes next in the file, unless it is stale, and an open
descriptor is behind it. -/
structure Tracks (world : World String) (size : Nat) (isOpen : Bool) (s : FlakyIn) (c : Cursor) : Prop where
  world_eq : s.dev.world = world
  size_eq : s.dev.size = size
  open_eq : s.dev.fd.isSome = isOpen
  file : ∀ f, s.dev.fd = some f → world.disk.inode f.inode = c.bytes ∧
    (f.offset : Int) = c.pos + if Stale s then 0 else s.gend - s.gnext
  next : 0 ≤ s.gnext ∧ s.gnext ≤ s.gend ∧ s.gend ≤ s.dev.data.length
  small : s.gend ≤ maxOffset
  window : ¬Stale s → ∀ n : Nat, n ≤ s.gend - s.gnext →
    (s.dev.data.drop s.gnext.toNat).take n = c.range n ∧ (c.range n).length = n

/-- The window may be read from, and the reads since `before` have not failed. -/
def Stands (world : World String) (size : Nat) (isOpen : Bool) (before : List (Option Errno))
    (s : FlakyIn) (c : Cursor) : Prop :=
  Tracks world size isOpen s c ∧ ¬Stale s ∧ ∃ m, s.dev.reads = List.replicate m none ++ before

/-- Of the reads since `before` only the last one has failed, with `e`. -/
def Broken (world : World String) (size : Nat) (isOpen : Bool) (before : List (Option Errno)) (e : Errno)
    (s : FlakyIn) (c : Cursor) : Prop :=
  Tracks world size isOpen s c ∧ ∃ m, s.dev.reads = some e :: List.replicate m none ++ before

/-- Reading brings nothing without a buffer, or at the end of the file. -/
def Dry (size : Nat) (c : Cursor) : Prop := size = 0 ∨ c.bytes.length ≤ c.pos

section

variable {world : World String} {size : Nat} {isOpen : Bool} {before : List (Option Errno)}
  {s : FlakyIn} {c : Cursor} {e : Errno}

/-! ### Underflow -/

theorem read_eq {f : OpenFile} (hworld : s.dev.world = world)
    (hbytes : world.disk.inode f.inode = c.bytes) (hoffset : f.offset = c.pos) (n : Nat) :
    s.dev.world.read f n = (c.range n, { f with offset := c.pos + (c.range n).length }) := by
  rw [hworld, World.read, hbytes, hoffset]
  rfl

theorem not_stale_of_none {rest : List (Option Errno)} (hreads : s.dev.reads = none :: rest) :
    ¬Stale s := by
  intro hstale
  apply hstale.2
  rw [hreads]
  rfl

theorem stale_iff {rest : List (Option Errno)} (hreads : s.dev.reads = some e :: rest) :
    Stale s ↔ s.gend ≠ 0 := by
  unfold Stale
  rw [hreads]
  exact and_iff_left (Option.some_ne_none e)

/-- The buffer before `load_buffer`. -/
def rewound (s : FlakyIn) : FlakyIn := { s with gbaseOffset := s.gpos, gnext := 0 }

/-- A `read` that fails at the end of the window. -/
theorem Stands.broken (h : Stands world size isOpen before s c) (hfull : s.gnext = s.gend)
    (e : Errno) : Broken world size isOpen before e (called (rewound s) (some e)) c := by
  obtain ⟨htracks, hfresh, m, hreads⟩ := h
  have hnext := htracks.next
  have hstale : Stale (called (rewound s) (some e)) ↔ s.gend ≠ 0 := stale_iff rfl
  refine ⟨?_, m, ?_⟩
  · exact {
      world_eq := htracks.world_eq
      size_eq := htracks.size_eq
      open_eq := htracks.open_eq
      file := by
        intro f hf
        obtain ⟨hbytes, hoffset⟩ := htracks.file f hf
        rw [if_neg hfresh] at hoffset
        refine ⟨hbytes, ?_⟩
        rw [hoffset]
        by_cases hs : Stale (called (rewound s) (some e))
        · rw [if_pos hs]
          omega
        · have hzero : s.gend = 0 := not_not.mp fun hne => hs (hstale.mpr hne)
          rw [if_neg hs]
          show (c.pos : Int) + (s.gend - s.gnext) = c.pos + (s.gend - 0)
          omega
      next := by
        show (0 : Int) ≤ 0 ∧ 0 ≤ s.gend ∧ s.gend ≤ s.dev.data.length
        omega
      small := htracks.small
      window := by
        intro hs n hn
        have hzero : s.gend = 0 := not_not.mp fun hne => hs (hstale.mpr hne)
        have hle : (n : Int) ≤ s.gend - 0 := hn
        obtain rfl : n = 0 := by omega
        rw [Cursor.range, List.take_zero, List.take_zero]
        exact ⟨rfl, rfl⟩ }
  · show some e :: s.dev.reads = _
    rw [hreads]
    rfl

/-- A `read` that brings a block. -/
theorem Stands.holding (h : Stands world size true before s c) {f : OpenFile}
    (hfile : world.disk.inode f.inode = c.bytes) (n : Nat)
    (hoffset : f.offset = c.pos + (c.range n).length) (hsmall : c.bytes.length ≤ maxOffset) :
    Stands world size true before (holding (called (rewound s) none) (c.range n) f) c := by
  obtain ⟨htracks, -, m, hreads⟩ := h
  have hlen := Ibfilebuf.length_range c n
  have hfresh : ¬Stale (FlakySource.holding (called (rewound s) none) (c.range n) f) :=
    not_stale_of_none rfl
  refine ⟨?_, hfresh, m + 1, ?_⟩
  · exact {
      world_eq := htracks.world_eq
      size_eq := htracks.size_eq
      open_eq := rfl
      file := by
        intro f₁ hf₁
        obtain rfl := Option.some.inj hf₁
        refine ⟨hfile, ?_⟩
        rw [if_neg hfresh]
        show (f.offset : Int) = c.pos + (0 + (c.range n).length - 0)
        omega
      next := by
        show (0 : Int) ≤ 0 ∧ (0 : Int) ≤ 0 + (c.range n).length ∧
          (0 : Int) + (c.range n).length ≤ (c.range n ++ s.dev.data.drop _).length
        rw [List.length_append]
        omega
      small := by
        show (0 : Int) + (c.range n).length ≤ maxOffset
        omega
      window := by
        intro _ k hk
        have hle : (k : Int) ≤ 0 + (c.range n).length - 0 := hk
        show (c.range n ++ s.dev.data.drop (c.range n).length).take k = c.range k ∧ _
        rw [List.take_append_of_le_length (by omega), Cursor.range, List.take_take,
          min_eq_left (by omega)]
        refine ⟨rfl, ?_⟩
        rw [Ibfilebuf.length_range]
        omega }
  · show none :: s.dev.reads = _
    rw [hreads]
    rfl

/-- A `read` for at most `n` bytes brings none only if there is nothing to read. -/
theorem Stands.loaded (h : Stands world size true before s c) {f : OpenFile}
    (hbytes : world.disk.inode f.inode = c.bytes) (hsmall : c.bytes.length ≤ maxOffset) {n : Nat}
    (hn : n = 0 → size = 0) :
    let s' := FlakySource.holding (called (rewound s) none) (c.range n)
      { f with offset := c.pos + (c.range n).length }
    s'.available = (c.range n).length ∧ Stands world size true before s' c ∧
      (s'.available = 0 → Dry size c) := by
  intro s'
  have hlen := Ibfilebuf.length_range c n
  have havail : s'.available = (c.range n).length := by
    show (((0 : Int) + (c.range n).length - 0) % 2 ^ 64).toNat = _
    unfold maxOffset at hsmall
    omega
  refine ⟨havail, h.holding (f := { f with offset := c.pos + (c.range n).length }) hbytes n rfl
    hsmall, ?_⟩
  intro hzero
  rw [havail, hlen] at hzero
  by_cases hsize : n = 0
  · exact .inl (hn hsize)
  · right
    omega

theorem Stands.underflow (h : Stands world size isOpen before s c)
    (hfiles : ∀ i, (world.disk.inode i).length ≤ maxOffset) (hfull : s.gnext = s.gend) :
    (∃ s', reallyUnderflow.run s = .ok (.ok s'.available) s' ∧ Stands world size isOpen before s' c ∧
      (s'.available = 0 → Dry size c)) ∨
    ∃ e s', reallyUnderflow.run s = .ok (.error e) s' ∧ Broken world size isOpen before e s' c := by
  obtain ⟨htracks, hfresh, -⟩ := id h
  have hunderflow : reallyUnderflow.run s = loadBuffer.run (rewound s) := by
    show (Fetch.check (s.gnext = s.gend) >>= fun _ => set (rewound s) >>= fun _ => loadBuffer :
      Fetch FlakySource (Except Errno Nat)).run s = _
    rw [Fetch.check, if_pos hfull]
    rfl
  rw [hunderflow]
  rcases hfd : s.dev.fd with _ | f
  · right
    refine ⟨.badf, _, ?_, h.broken hfull .badf⟩
    have hnone : (rewound s).dev.fd = none := hfd
    rw [loadBuffer, run_get_bind, hnone]
    rfl
  · have hopen : true = isOpen := by rw [← htracks.open_eq, hfd, Option.isSome_some]
    subst hopen
    have hsome : (rewound s).dev.fd = some f := hfd
    obtain ⟨hbytes, hoffset⟩ := htracks.file f hfd
    rw [if_neg hfresh] at hoffset
    have hpos : f.offset = c.pos := by omega
    have hsmall : c.bytes.length ≤ maxOffset := by
      rw [← hbytes]
      exact hfiles f.inode
    have hworld : (rewound s).dev.world = world := htracks.world_eq
    have hsize : (rewound s).dev.size = size := htracks.size_eq
    rw [loadBuffer, run_get_bind, hsome]
    rcases hanswer : s.dev.answers s.dev.reads.length with _ | n | e
    all_goals
      have hanswer' : (rewound s).dev.answers (rewound s).dev.reads.length = _ := hanswer
      simp only [hanswer', read_eq hworld hbytes hpos, hsize]
    · left
      obtain ⟨havail, hstands, hdry⟩ := h.loaded hbytes hsmall id
      refine ⟨_, ?_, hstands, hdry⟩
      rw [havail]
      rfl
    · left
      obtain ⟨havail, hstands, hdry⟩ := h.loaded hbytes hsmall (n := min size (n + 1)) (by omega)
      refine ⟨_, ?_, hstands, hdry⟩
      rw [havail]
      rfl
    · right
      exact ⟨e, _, rfl, h.broken hfull e⟩

/-- Some of what is in the window is taken. -/
theorem Stands.bump (h : Stands world size isOpen before s c) {n : Nat} (hn : n ≤ s.gend - s.gnext) :
    Stands world size isOpen before (s.gbump n) (c.forward n) := by
  obtain ⟨htracks, hfresh, hreads⟩ := h
  have hnext := htracks.next
  refine ⟨?_, hfresh, hreads⟩
  exact {
    world_eq := htracks.world_eq
    size_eq := htracks.size_eq
    open_eq := htracks.open_eq
    file := by
      intro f hf
      obtain ⟨hbytes, hoffset⟩ := htracks.file f hf
      have hfresh' : ¬Stale (s.gbump n) := hfresh
      rw [if_neg hfresh] at hoffset
      refine ⟨hbytes, ?_⟩
      rw [if_neg hfresh', hoffset]
      show (c.pos : Int) + (s.gend - s.gnext) = ((c.pos + n : Nat) : Int) + (s.gend - (s.gnext + n))
      omega
    next := by
      show 0 ≤ s.gnext + n ∧ s.gnext + n ≤ s.gend ∧ s.gend ≤ s.dev.data.length
      omega
    small := htracks.small
    window := by
      intro _ k hk
      have hk' : (k : Int) ≤ s.gend - (s.gnext + n) := hk
      obtain ⟨hwindow, hlen⟩ := htracks.window hfresh (n + k) (by omega)
      have hsum : (s.gnext + n).toNat = s.gnext.toNat + n := by omega
      have hcut : ∀ l : List UInt8, (l.drop n).take k = (l.take (n + k)).drop n := by
        intro l
        rw [List.drop_take, Nat.add_sub_cancel_left]
      have hrange : (c.forward n).range k = (c.range (n + k)).drop n := by
        rw [Cursor.range, Cursor.range, ← hcut, List.drop_drop]
        rfl
      rw [hrange]
      refine ⟨?_, ?_⟩
      · show (s.dev.data.drop (s.gnext + n).toNat).take k = _
        rw [hsum, ← List.drop_drop, hcut, hwindow]
      · rw [List.length_drop, hlen, Nat.add_sub_cancel_left] }

theorem supplies (hfiles : ∀ i, (world.disk.inode i).length ≤ maxOffset) :
    Supplies (Stands world size isOpen before) (Broken world size isOpen before) (Dry size) where
  inside := by
    rintro s c ⟨htracks, -, -⟩
    have hnext := htracks.next
    have hsmall := htracks.small
    unfold maxOffset at hsmall
    omega
  ahead := by
    rintro s c n ⟨htracks, hfresh, -⟩ hn
    have hnext := htracks.next
    obtain ⟨hwindow, hlen⟩ := htracks.window hfresh n hn
    refine ⟨?_, hlen⟩
    have hin : 0 ≤ s.gnext ∧ s.gnext.toNat + n ≤ s.dev.data.length := by omega
    show (if 0 ≤ s.gnext ∧ s.gnext.toNat + n ≤ s.dev.data.length then _ else none) = _
    rw [if_pos hin, hwindow]
  bump := by
    intro s c n h hn
    exact h.bump hn
  underflow := by
    intro s c h hfull
    exact h.underflow hfiles hfull

/-! ### Calls -/

theorem step_ok {op : SourceOp} {s' : FlakyIn} {bs : List UInt8} {p : Option Int}
    {error : Option Errno} (hrun : op.call.run s = .ok (bs, p, error) s') :
    step s op = (⟨bs, p, error.map .errno,
      s'.dev.reads.take (s'.dev.reads.length - s.dev.reads.length), s'.gpos⟩, s') := by
  unfold step
  simp only [hrun, left]

theorem step_error {op : SourceOp} {s' : FlakyIn} {f : ReadFailure} (hrun : op.call.run s = .error f s') :
    step s op = (⟨[], none, some f,
      s'.dev.reads.take (s'.dev.reads.length - s.dev.reads.length), s'.gpos⟩, s') := by
  unfold step
  simp only [hrun, left]

theorem take_new {old new : List (Option Errno)} :
    (new ++ old).take ((new ++ old).length - old.length) = new := by
  rw [List.length_append, Nat.add_sub_cancel_right, List.take_left]

/-- The call has made reads, none of which has failed, and reports something else or nothing. -/
theorem Stands.honest {s' : FlakyIn} (h : Stands world size isOpen s.dev.reads s' c) {r : ReadReport}
    (hreads : r.reads = s'.dev.reads.take (s'.dev.reads.length - s.dev.reads.length)) {op : SourceOp}
    (herror : r.error = none ∨ r.error = some .pastEnd) : r.Honest op := by
  obtain ⟨-, -, m, hm⟩ := h
  rw [hm, take_new] at hreads
  refine ⟨fun _ e => ?_, ?_⟩
  · rw [hreads]
    constructor
    · intro hmem
      exact absurd (List.eq_of_mem_replicate hmem) (Option.some_ne_none e)
    · intro he
      rcases herror with hnone | hpast
      · rw [hnone] at he
        cases he
      · rw [hpast] at he
        cases he
  · rcases herror with hnone | hpast
    · rw [hnone]
      exact nofun
    · rw [hpast]
      exact nofun

/-- The last read of the call has failed, and the call reports its error. -/
theorem Broken.honest {s' : FlakyIn} (h : Broken world size isOpen s.dev.reads e s' c) {r : ReadReport}
    (hreads : r.reads = s'.dev.reads.take (s'.dev.reads.length - s.dev.reads.length)) {op : SourceOp}
    (herror : r.error = some (.errno e)) : r.Honest op := by
  obtain ⟨-, m, hm⟩ := h
  rw [hm, take_new] at hreads
  refine ⟨fun _ e' => ?_, ?_⟩
  · rw [hreads, herror]
    constructor
    · intro hmem
      rcases List.mem_cons.mp hmem with heq | hrest
      · rw [Option.some.inj heq]
      · exact absurd (List.eq_of_mem_replicate hrest) (Option.some_ne_none e')
    · intro heq
      have hsame : e = e' := ReadFailure.errno.inj (Option.some.inj heq)
      rw [hsame]
      exact List.mem_cons_self
  · rw [herror]
    exact nofun

/-- What a call tells is honest and genuine, and the buffer still tracks the file. -/
def Serves (world : World String) (size : Nat) (isOpen : Bool) (s : FlakyIn) (c : Cursor)
    (op : SourceOp) : Prop :=
  (step s op).1.Honest op ∧
    ∃ c', c.Genuine world.disk (Dry size) op (step s op).1 c' ∧
      Tracks world size (op.opens isOpen (step s op).1) (step s op).2 c'

theorem opens_of_reads {op : SourceOp} (hop : op.Reads) (isOpen : Bool) (r : ReadReport) :
    op.opens isOpen r = isOpen := by
  cases op with
  | open_ filename => exact hop.elim
  | close => exact hop.elim
  | get => rfl
  | peek => rfl
  | getn n => rfl
  | getnThrowing n => rfl
  | seek where_ offset => rfl

/-- A call for one byte; `c'` is the cursor after it. -/
theorem Stands.one {op : SourceOp} {m : Fetch FlakySource UInt8} {c' : Cursor}
    (hop : op = .get ∨ op = .peek) (hcall : op.call = m >>= fun b => pure ([b], none, none))
    (hbyte : ∀ {b : UInt8} {r : ReadReport}, r.bytes = [b] → r.error = none → c.ahead = .ok b →
      c.Genuine world.disk (Dry size) op r c')
    (hends : Fetched (Stands world size isOpen s.dev.reads) (Broken world size isOpen s.dev.reads)
      (Dry size) c c' (m.run s)) : Serves world size isOpen s c op := by
  have hreads : op.Reads := by
    rcases hop with rfl | rfl
    · trivial
    · trivial
  generalize hrun : m.run s = r at hends
  cases hends with
  | @byte b s' hb h' =>
    have hdone : op.call.run s = .ok ([b], none, none) s' := by
      rw [hcall, run_bind_ok hrun]
      rfl
    rw [Serves, step_ok hdone, opens_of_reads hreads]
    exact ⟨h'.honest rfl (.inl rfl), _, hbyte rfl rfl hb, h'.1⟩
  | @dry s' hdry h' =>
    have hdone : op.call.run s = .error .pastEnd s' := by rw [hcall, EStateM.run_bind, hrun]
    rw [Serves, step_error hdone, opens_of_reads hreads]
    exact ⟨h'.honest rfl (.inr rfl), _, .past hop rfl rfl hdry, h'.1⟩
  | @failed e s' h' =>
    have hdone : op.call.run s = .error (.errno e) s' := by rw [hcall, EStateM.run_bind, hrun]
    rw [Serves, step_error hdone, opens_of_reads hreads]
    exact ⟨h'.honest rfl rfl, _, .failed rfl rfl, h'.1⟩

theorem Stands.getn (h : Stands world size isOpen s.dev.reads s c)
    (hfiles : ∀ i, (world.disk.inode i).length ≤ maxOffset) (n : Nat) :
    Serves world size isOpen s c (.getn n) := by
  have hends := (supplies hfiles).getn h n
  generalize hrun : (Fetch.getn n).run s = r at hends
  cases hends with
  | @got k s' hk hlen hfull h' =>
    have hcall : (SourceOp.getn n).call.run s = .ok (c.range k, none, none) s' := by
      rw [SourceOp.call, run_bind_ok hrun]
      rfl
    rw [Serves, step_ok hcall]
    exact ⟨h'.honest rfl (.inl rfl), _, .getn hk rfl hlen (.inl ⟨rfl, hfull⟩), h'.1⟩
  | @cut k e s' hk hlen h' =>
    have hcall : (SourceOp.getn n).call.run s = .ok (c.range k, none, some e) s' := by
      rw [SourceOp.call, run_bind_ok hrun]
      rfl
    rw [Serves, step_ok hcall]
    exact ⟨h'.honest rfl rfl, _, .getn hk rfl hlen (.inr ⟨e, rfl⟩), h'.1⟩

theorem Stands.getnThrowing (h : Stands world size isOpen s.dev.reads s c)
    (hfiles : ∀ i, (world.disk.inode i).length ≤ maxOffset) (n : Nat) :
    Serves world size isOpen s c (.getnThrowing n) := by
  have hends := (supplies hfiles).getn h n
  generalize hrun : (Fetch.getn n).run s = r at hends
  cases hends with
  | @got k s' hk hlen hfull h' =>
    have hcall : (SourceOp.getnThrowing n).call.run s = .ok (c.range k, none, none) s' := by
      rw [SourceOp.call, Fetch.getnThrowing, EStateM.run_bind, run_bind_ok hrun]
      rfl
    rw [Serves, step_ok hcall]
    exact ⟨h'.honest rfl (.inl rfl), _, .getnThrowing hk rfl hlen rfl hfull, h'.1⟩
  | @cut k e s' hk hlen h' =>
    have hcall : (SourceOp.getnThrowing n).call.run s = .error (.errno e) s' := by
      rw [SourceOp.call, Fetch.getnThrowing, EStateM.run_bind, run_bind_ok hrun]
      rfl
    rw [Serves, step_error hcall]
    exact ⟨h'.honest rfl rfl, _, .thrown hk rfl hlen rfl, h'.1⟩

theorem Stands.read (h : Stands world size isOpen s.dev.reads s c)
    (hfiles : ∀ i, (world.disk.inode i).length ≤ maxOffset) {op : SourceOp} (hop : op.Reads) :
    Serves world size isOpen s c op := by
  cases op with
  | get => exact Stands.one (.inl rfl) rfl .get ((supplies hfiles).get h)
  | peek => exact Stands.one (.inr rfl) rfl .peek ((supplies hfiles).peek h)
  | getn n => exact h.getn hfiles n
  | getnThrowing n => exact h.getnThrowing hfiles n
  | seek where_ offset => exact hop.elim
  | open_ filename => exact hop.elim
  | close => exact hop.elim

/-- Nothing is in the window, and the descriptor `f` is at the cursor. -/
theorem Tracks.emptied (h : Tracks world size isOpen s c) {f : OpenFile} {p : Nat} {bytes : List UInt8}
    (hbytes : world.disk.inode f.inode = bytes) (hoffset : f.offset = p) (base : Int)
    (filename : String) : Tracks world size true ⟨base, 0, 0, { s.dev with
      world := world, fd := some f, filename := filename }⟩ ⟨bytes, p⟩ where
  world_eq := rfl
  size_eq := h.size_eq
  open_eq := rfl
  file := by
    intro f' hf'
    obtain rfl := Option.some.inj hf'
    refine ⟨hbytes, ?_⟩
    rw [hoffset]
    split_ifs
    · exact (Int.add_zero _).symm
    · exact (Int.add_zero _).symm
  next := by
    show (0 : Int) ≤ 0 ∧ (0 : Int) ≤ 0 ∧ (0 : Int) ≤ s.dev.data.length
    omega
  small := Int.natCast_nonneg _
  window := by
    intro _ n hn
    have hle : (n : Int) ≤ 0 - 0 := hn
    obtain rfl : n = 0 := by omega
    rw [Cursor.range, List.take_zero, List.take_zero]
    exact ⟨rfl, rfl⟩

theorem seek_closed (hfd : s.dev.fd = none) (where_ : SeekAnchor) (offset : Int) :
    (SourceOp.seek where_ offset).call.run s = .error (.errno .badf) s := by
  have hseek : (seek where_ offset).run s = .error (.errno .badf) s := by
    rw [seek, run_get_bind, hfd]
    rfl
  rw [SourceOp.call, EStateM.run_bind, hseek]

theorem seek_invalid {f : OpenFile} (hfd : s.dev.fd = some f) {where_ : SeekAnchor} {offset : Int}
    (hout : destination s f where_ offset < 0 ∨ maxOffset < destination s f where_ offset) :
    (SourceOp.seek where_ offset).call.run s = .error .invalidArgument s := by
  have hseek : (seek where_ offset).run s = .error .invalidArgument s := by
    rw [seek, run_get_bind, hfd]
    simp only [if_pos hout]
    rfl
  rw [SourceOp.call, EStateM.run_bind, hseek]

theorem seek_lands {f : OpenFile} (hfd : s.dev.fd = some f) {where_ : SeekAnchor} {offset : Int} {p : Nat}
    (hp : destination s f where_ offset = p) (hsmall : p ≤ maxOffset) :
    (SourceOp.seek where_ offset).call.run s = .ok ([], some (p : Int), none)
      ⟨p, 0, 0, { s.dev with fd := some { f with offset := p } }⟩ := by
  have hin : ¬((p : Int) < 0 ∨ (maxOffset : Int) < p) := by omega
  have hseek : (seek where_ offset).run s = .ok (p : Int)
      ⟨p, 0, 0, { s.dev with fd := some { f with offset := p } }⟩ := by
    rw [seek, run_get_bind, hfd]
    simp only [hp, if_neg hin]
    rfl
  rw [SourceOp.call, run_bind_ok hseek]
  rfl

theorem Tracks.landed (h : Tracks world size isOpen s c) {f : OpenFile} (hfd : s.dev.fd = some f) (p : Nat) :
    Tracks world size true ⟨p, 0, 0, { s.dev with fd := some { f with offset := p } }⟩ { c with pos := p } := by
  obtain rfl := h.world_eq
  exact h.emptied (f := { f with offset := p }) (h.file f hfd).1 rfl p s.dev.filename

theorem Tracks.seek (h : Tracks world size isOpen s c) (where_ : SeekAnchor) (offset : Int) :
    Serves world size isOpen s c (.seek where_ offset) := by
  rcases hfd : s.dev.fd with _ | f
  · rw [Serves, step_error (seek_closed hfd where_ offset)]
    exact ⟨⟨False.elim, by intro h; cases h⟩, c, .failed rfl rfl, h⟩
  · by_cases hout : destination s f where_ offset < 0 ∨ maxOffset < destination s f where_ offset
    · rw [Serves, step_error (seek_invalid hfd hout)]
      exact ⟨⟨False.elim, by intro h; cases h⟩, c, .invalid rfl, h⟩
    · obtain ⟨p, hp⟩ := Int.eq_ofNat_of_zero_le (a := destination s f where_ offset) (by omega)
      have hopen : true = isOpen := by rw [← h.open_eq, hfd, Option.isSome_some]
      rw [Serves, step_ok (seek_lands hfd hp (by omega)), ← hopen]
      exact ⟨⟨False.elim, by intro h; cases h⟩, _, .seek rfl rfl (Int.add_zero _), h.landed hfd p⟩

theorem Tracks.closed (h : Tracks world size isOpen s c) (filename : String) :
    Tracks world size false { s with dev := { s.dev with fd := none, filename := filename } } c where
  world_eq := h.world_eq
  size_eq := h.size_eq
  open_eq := rfl
  file := nofun
  next := h.next
  small := h.small
  window := h.window

theorem Tracks.close (h : Tracks world size isOpen s c) : Serves world size isOpen s c .close := by
  have hcall : SourceOp.close.call.run s = .ok ([], none, none) (setFd s none) := rfl
  rw [Serves, step_ok hcall]
  exact ⟨⟨False.elim, by intro h; cases h⟩, c, .close rfl, h.closed s.dev.filename⟩

theorem Tracks.open_ (h : Tracks world size isOpen s c) (filename : String) :
    Serves world size isOpen s c (.open_ filename) := by
  have hworld := h.world_eq
  rcases hdir : world.disk.dir filename with _ | i
  · have hopen : s.dev.world.open_ filename ⟨false, false, false⟩ = .error .noent := by
      rw [hworld, World.open_, hdir]
      rfl
    have hcall : (SourceOp.open_ filename).call.run s = .error (.errno .noent)
        { s with dev := { s.dev with fd := none, filename := filename } } := by
      have hrun : (FlakySource.open_ filename).run s = .error (.errno .noent)
          { s with dev := { s.dev with fd := none, filename := filename } } := by
        rw [FlakySource.open_, run_bind_ok (m := modify _) rfl, run_bind_ok (m := FlakySource.close) rfl,
          run_bind_ok (m := get) rfl]
        dsimp only [setFd]
        rw [hopen]
        rfl
      rw [SourceOp.call, EStateM.run_bind, hrun]
    rw [Serves, step_error hcall]
    exact ⟨⟨False.elim, by intro h; cases h⟩, c, .failed rfl rfl, h.closed filename⟩
  · have hopen : s.dev.world.open_ filename ⟨false, false, false⟩ =
        .ok (s.dev.world, ⟨i, 0, false⟩) := by
      rw [hworld, World.open_, hdir]
      rfl
    have hcall : (SourceOp.open_ filename).call.run s = .ok ([], none, none)
        ⟨s.gbaseOffset, 0, 0, { s.dev with
          world := world, fd := some ⟨i, 0, false⟩, filename := filename }⟩ := by
      have hrun : (FlakySource.open_ filename).run s = .ok ()
          ⟨s.gbaseOffset, 0, 0, { s.dev with
            world := world, fd := some ⟨i, 0, false⟩, filename := filename }⟩ := by
        rw [FlakySource.open_, run_bind_ok (m := modify _) rfl, run_bind_ok (m := FlakySource.close) rfl,
          run_bind_ok (m := get) rfl]
        dsimp only [setFd]
        rw [hopen, ← hworld]
        rfl
      rw [SourceOp.call, run_bind_ok hrun]
      rfl
    have hcontent : world.disk.content filename = some (world.disk.inode i) := by
      rw [Disk.content, hdir]
      rfl
    rw [Serves, step_ok hcall]
    exact ⟨⟨False.elim, by intro h; cases h⟩, _, .opened hcontent rfl,
      h.emptied (f := ⟨i, 0, false⟩) rfl rfl s.gbaseOffset filename⟩

/-- One call; nothing is read from a stale window. -/
theorem Tracks.step (h : Tracks world size isOpen s c)
    (hfiles : ∀ i, (world.disk.inode i).length ≤ maxOffset) {op : SourceOp} (hop : Fresh s op) :
    Serves world size isOpen s c op := by
  by_cases hreads : op.Reads
  · have hstands : Stands world size isOpen s.dev.reads s c := ⟨h, hop hreads, 0, rfl⟩
    exact hstands.read hfiles hreads
  · cases op with
    | get => exact absurd trivial hreads
    | peek => exact absurd trivial hreads
    | getn n => exact absurd trivial hreads
    | getnThrowing n => exact absurd trivial hreads
    | seek where_ offset => exact h.seek where_ offset
    | open_ filename => exact h.open_ filename
    | close => exact h.close

theorem Tracks.run (h : Tracks world size isOpen s c)
    (hfiles : ∀ i, (world.disk.inode i).length ≤ maxOffset) {ops : List SourceOp}
    (hops : FreshRun s ops) : c.GenuineRun world.disk (Dry size) (run s ops) := by
  induction ops generalizing s c isOpen with
  | nil => trivial
  | cons op ops ih =>
    obtain ⟨hop, hrest⟩ := hops
    obtain ⟨hhonest, c', hgenuine, h'⟩ := h.step hfiles hop
    exact ⟨hhonest, c', hgenuine, ih h' hrest⟩

end

theorem tracks_create (world : World String) (size : Nat) (answers : Nat → Answer) :
    Tracks world size false (create world size answers) ⟨[], 0⟩ where
  world_eq := rfl
  size_eq := rfl
  open_eq := rfl
  file := nofun
  next := ⟨le_rfl, le_rfl, Int.natCast_nonneg _⟩
  small := Int.natCast_nonneg _
  window := by
    intro _ n hn
    have hle : (n : Int) ≤ 0 - 0 := hn
    obtain rfl : n = 0 := by omega
    exact ⟨rfl, rfl⟩

/-- Whatever files there are and however `read` answers: as long as nothing is read while bytes are in the
window and the last `read` has failed, what is delivered is what the file has at the logical position. -/
theorem no_stale_bytes (world : World String) (hfiles : ∀ i, (world.disk.inode i).length ≤ maxOffset)
    (size : Nat) (answers : Nat → Answer) (ops : List SourceOp)
    (hops : FreshRun (create world size answers) ops) :
    Cursor.GenuineRun world.disk (Dry size) ⟨[], 0⟩ (run (create world size answers) ops) :=
  (tracks_create world size answers).run hfiles hops

/-- The first read fails, and so does the third. -/
def failsTwice : Nat → Answer
  | 0 => .fails .badf
  | 1 => .upTo 1
  | 2 => .fails .badf
  | _ => .whole

def freshRun : List SourceOp :=
  [.open_ "f", .get, .getn 3, .seek .begin 3, .peek, .getnThrowing 9, .get, .close, .open_ "g"]

theorem no_stale_bytes_freshRun :
    (run (create Ibfilebuf.sixBytes 4 failsTwice) freshRun).map (fun x => (x.2.bytes, x.2.error)) =
      [([], none), ([], some (.errno .badf)), ([1, 2], some (.errno .badf)), ([], none), ([4], none),
        ([4, 5, 6], none), ([], some .pastEnd), ([], none), ([], some (.errno .noent))] ∧
    Cursor.GenuineRun Ibfilebuf.sixBytes.disk (Dry 4) ⟨[], 0⟩
      (run (create Ibfilebuf.sixBytes 4 failsTwice) freshRun) := by
  refine ⟨by decide +kernel, ?_⟩
  refine no_stale_bytes Ibfilebuf.sixBytes ?_ 4 failsTwice freshRun (by decide +kernel)
  intro i
  show 6 ≤ maxOffset
  decide

def failsSecond (k : Nat) : Answer := if k = 1 then .fails .badf else .whole

/-- The block is read up to its end, the next read fails, and the block starts again. -/
theorem stale_byte :
    (run (create Ibfilebuf.sixBytes 4 failsSecond) [.open_ "f", .getn 4, .get, .get]).map
        (fun x => (x.2.bytes, x.2.error)) =
      [([], none), ([1, 2, 3, 4], none), ([], some (.errno .badf)), ([1], none)] ∧
    ¬Cursor.GenuineRun Ibfilebuf.sixBytes.disk (Dry 4) ⟨[], 0⟩
      (run (create Ibfilebuf.sixBytes 4 failsSecond) [.open_ "f", .getn 4, .get, .get]) := by
  have hrun : run (create Ibfilebuf.sixBytes 4 failsSecond) [.open_ "f", .getn 4, .get, .get] =
      [(.open_ "f", ⟨[], none, none, [], 0⟩), (.getn 4, ⟨[1, 2, 3, 4], none, none, [none], 4⟩),
        (.get, ⟨[], none, some (.errno .badf), [some .badf], 4⟩), (.get, ⟨[1], none, none, [], 5⟩)] := by
    decide +kernel
  rw [hrun]
  refine ⟨by decide, ?_⟩
  rintro ⟨-, c₁, h₁, -, c₂, h₂, -, c₃, h₃, -, c₄, h₄, -⟩
  have hfile : Ibfilebuf.sixBytes.disk.content "f" = some [1, 2, 3, 4, 5, 6] := by decide +kernel
  have hc₁ : c₁ = ⟨[1, 2, 3, 4, 5, 6], 0⟩ := by
    cases h₁ with
    | past hop => simp at hop
    | failed _ herror => cases herror
    | opened hcontent _ =>
      rw [hfile] at hcontent
      rw [Option.some.inj hcontent]
  have hc₂ : c₂ = ⟨[1, 2, 3, 4, 5, 6], 4⟩ := by
    rw [hc₁] at h₂
    cases h₂ with
    | past hop => simp at hop
    | failed _ herror => cases herror
    | @getn n k r hk hbytes hlen hfull =>
      rw [← hbytes] at hlen
      have hfour : k = 4 := hlen.symm
      rw [hfour]
      rfl
  have hc₃ : c₃ = c₂ := by
    cases h₃ with
    | get _ herror => cases herror
    | past _ _ herror => cases herror
    | failed => rfl
  rw [hc₃, hc₂] at h₄
  cases h₄ with
  | past _ hbytes => cases hbytes
  | failed hbytes => cases hbytes
  | get hbytes _ hahead =>
    have hfive : Cursor.ahead ⟨[1, 2, 3, 4, 5, 6], 4⟩ = .ok 5 := rfl
    rw [hfive] at hahead
    obtain rfl := Except.ok.inj hahead
    exact absurd hbytes (by decide)

end FlakySource

end Nodeoze.Bstream
