import Nodeoze.Bstream.Ibmembuf

/-!
# The input buffer of a file

`ibfilebuf` reads a file block by block.  While a block is in the window, the descriptor's offset is
behind it.  `tell( seek_anchor::end )` asks `lseek` for the size of the file and then puts the
offset to where the window starts, so the next block is the old one again unless the window is
empty.
-/

namespace Nodeoze.Bstream

open Posix

/-- The file system, the memory of `m_buf` as far as it was ever written, its size, and the file.
`m_is_open` is whether there is a descriptor. -/
structure FileSource where
  world : World String
  data : List UInt8
  size : Nat
  filename : String
  fd : Option OpenFile

abbrev Ibfilebuf := Ibstreambuf FileSource

namespace Ibfilebuf

/-- `ibfilebuf( buffer_size )` -/
def create (world : World String) (size : Nat) : Ibfilebuf := ⟨0, 0, 0, ⟨world, [], size, "", none⟩⟩

/-- A call on a descriptor that is not open fails. -/
def descriptor (s : Ibfilebuf) : Except Failure OpenFile :=
  match s.dev.fd with
  | some f => .ok f
  | none => .error (.errno .badf)

def setFd (s : Ibfilebuf) (fd : Option OpenFile) : Ibfilebuf := { s with dev := { s.dev with fd := fd } }

def resetPtrs (s : Ibfilebuf) : Ibfilebuf := { s with gnext := 0, gend := 0 }

/-- The block `bs` is in the window, and `f` is the descriptor behind it. -/
def holding (s : Ibfilebuf) (bs : List UInt8) (f : OpenFile) : Ibfilebuf :=
  { s with gend := s.gnext + bs.length
           dev := { s.dev with fd := some f, data := bs ++ s.dev.data.drop bs.length } }

def loadBuffer (s : Ibfilebuf) : Except Failure (Nat × Ibfilebuf) := do
  let f ← descriptor s
  let (bs, f) := s.dev.world.read f s.dev.size
  pure (bs.length, holding s bs f)

instance : Source FileSource where
  load dev off n :=
    if 0 ≤ off ∧ off.toNat + n ≤ dev.data.length then some ((dev.data.drop off.toNat).take n) else none
  reallyUnderflow s := loadBuffer { s with gbaseOffset := s.gpos, gnext := 0 }

/-- `lseek( m_fd, save, SEEK_SET )` -/
def lseek (s : Ibfilebuf) (off : Int) : Except Failure Ibfilebuf := do
  let f ← descriptor s
  if off < 0 then throw .invalidArgument
  else pure (setFd s (some { f with offset := off.toNat }))

/-- `really_tell` -/
def tell (s : Ibfilebuf) : SeekAnchor → Except Failure (Int × Ibfilebuf)
  | .current => pure (s.gpos, s)
  | .end_ => do
    let save := s.gbaseOffset
    let f ← descriptor s
    let f := s.dev.world.seekEnd f
    let s ← lseek (setFd s (some f)) save
    pure (f.offset, s)
  | .begin => pure (0, s)

/-- `open( filename )`: a file that is open is closed, and `gbase_offset` is left as it is. -/
def open_ (s : Ibfilebuf) (filename : String) : Except Failure Ibfilebuf := do
  let s : Ibfilebuf := { s with dev := { s.dev with filename := filename } }
  let (world, f) ← (s.dev.world.open_ filename ⟨false, false, false⟩).mapError Failure.errno
  pure (resetPtrs { s with dev := { s.dev with world := world, fd := some f } })

end Ibfilebuf

inductive FetchOp
  | get
  | peek
  | getn (n : UInt64)
  | tell (where_ : SeekAnchor)
  deriving DecidableEq, Repr

def Ibfilebuf.step (s : Ibfilebuf) : FetchOp → Except Failure (Reply × Ibfilebuf)
  | .get => do
    let (r, s) ← s.get
    pure (.ofByte r, s)
  | .peek => do
    let (r, s) ← s.peek
    pure (.ofByte r, s)
  | .getn n => do
    let (bs, s) ← s.getn n.toNat
    pure (.bytes bs, s)
  | .tell where_ => do
    let (p, s) ← Ibfilebuf.tell s where_
    pure (.position p, s)

def Ibfilebuf.run (s : Ibfilebuf) : List FetchOp → Except Failure (List Reply × Ibfilebuf)
  | [] => pure ([], s)
  | op :: ops => do
    let (r, s) ← step s op
    let (rs, s) ← run s ops
    pure (r :: rs, s)

/-- The reply, and the bytes that the call has consumed. -/
def Cursor.fetch (c : Cursor) : FetchOp → Reply × Cursor
  | .get => (.ofByte c.ahead, c.advance 1)
  | .peek => (.ofByte c.ahead, c)
  | .getn n => (.bytes (c.range n.toNat), c.advance n.toNat)
  | .tell where_ => (.position (c.tell where_), c)

def Cursor.fetches (c : Cursor) : List FetchOp → List Reply × Cursor
  | [] => ([], c)
  | op :: ops =>
    let (r, c) := c.fetch op
    let (rs, c) := c.fetches ops
    (r :: rs, c)

namespace Ibfilebuf

/-- The size of the file is asked for only with nothing in the window. -/
def Sound (s : Ibfilebuf) : FetchOp → Prop
  | .tell .end_ => s.gend = 0
  | _ => True

instance (s : Ibfilebuf) (op : FetchOp) : Decidable (Sound s op) := by
  rcases op with _ | _ | _ | (_ | _ | _) <;> unfold Sound <;> infer_instance

def SoundRun (s : Ibfilebuf) : List FetchOp → Prop
  | [] => True
  | op :: ops =>
    Sound s op ∧
    match step s op with
    | .ok (_, s') => SoundRun s' ops
    | .error _ => True

instance SoundRun.decide (s : Ibfilebuf) : (ops : List FetchOp) → Decidable (SoundRun s ops)
  | [] => isTrue trivial
  | op :: ops => by
    have hrest : Decidable (match step s op with
        | .ok (_, s') => SoundRun s' ops
        | .error _ => True) :=
      match step s op with
      | .ok (_, s') => SoundRun.decide s' ops
      | .error _ => isTrue trivial
    exact instDecidableAnd

/-- The window has what the file has at `gbase_offset`, and the descriptor is behind it. -/
structure Over (s : Ibfilebuf) (c : Cursor) : Prop where
  file : ∃ f, s.dev.fd = some f ∧ s.dev.world.disk.inode f.inode = c.bytes ∧
    (f.offset : Int) = s.gbaseOffset + s.gend
  base : 0 ≤ s.gbaseOffset
  next : 0 ≤ s.gnext ∧ s.gnext ≤ s.gend
  pos : s.gpos = c.pos
  stored : s.gend ≤ s.dev.data.length
  window : s.dev.data.take s.gend.toNat = (c.bytes.drop s.gbaseOffset.toNat).take s.gend.toNat
  inside : s.gbaseOffset + s.gend ≤ c.bytes.length
  size_pos : 0 < s.dev.size ∨ c.bytes = []
  small : c.bytes.length ≤ maxOffset

section

variable {s : Ibfilebuf} {c : Cursor}

/-- What is left of the window is what comes next in the file. -/
theorem Over.load (h : Over s c) {n : Nat} (hn : n ≤ s.gend - s.gnext) :
    Source.load s.dev s.gnext n = some (c.range n) ∧ c.pos + n ≤ c.bytes.length := by
  have h1 := h.base
  have h2 := h.next
  have h3 := h.inside
  have h4 := h.stored
  have hpos : s.gbaseOffset + s.gnext = c.pos := h.pos
  have hin : 0 ≤ s.gnext ∧ s.gnext.toNat + n ≤ s.dev.data.length := by omega
  refine ⟨?_, by omega⟩
  show (if 0 ≤ s.gnext ∧ s.gnext.toNat + n ≤ s.dev.data.length then _ else none) = _
  rw [if_pos hin]
  have hcut : ∀ l : List UInt8, (l.drop s.gnext.toNat).take n =
      ((l.take s.gend.toNat).drop s.gnext.toNat).take n := by
    intro l
    rw [List.drop_take, List.take_take, min_eq_left (by omega)]
  rw [hcut, h.window, ← hcut, List.drop_drop]
  have hsum : s.gbaseOffset.toNat + s.gnext.toNat = c.pos := by omega
  rw [hsum]
  rfl

theorem length_range (c : Cursor) (n : Nat) :
    (c.range n).length = min n (c.bytes.length - c.pos) := by
  rw [Cursor.range, List.length_take, List.length_drop]

/-- The buffer after `load_buffer` has read the block at the cursor. -/
def reloaded (s : Ibfilebuf) (c : Cursor) (f : OpenFile) : Ibfilebuf :=
  ⟨c.pos, 0, (c.range s.dev.size).length, { s.dev with
    fd := some { f with offset := c.pos + (c.range s.dev.size).length }
    data := c.range s.dev.size ++ s.dev.data.drop (c.range s.dev.size).length }⟩

theorem Over.loadBuffer (h : Over s c) {f : OpenFile} (hfd : s.dev.fd = some f)
    (hbytes : s.dev.world.disk.inode f.inode = c.bytes) (hoffset : f.offset = c.pos) :
    Ibfilebuf.loadBuffer { s with gbaseOffset := s.gpos, gnext := 0 } =
      .ok ((c.range s.dev.size).length, reloaded s c f) := by
  have hread : s.dev.world.read f s.dev.size =
      (c.range s.dev.size, { f with offset := c.pos + (c.range s.dev.size).length }) := by
    rw [World.read, hbytes, hoffset]
    rfl
  have hload : Ibfilebuf.loadBuffer { s with gbaseOffset := s.gpos, gnext := 0 } =
      .ok ((c.range s.dev.size).length,
        holding { s with gbaseOffset := s.gpos, gnext := 0 } (c.range s.dev.size)
          { f with offset := c.pos + (c.range s.dev.size).length }) := by
    simp only [Ibfilebuf.loadBuffer, descriptor, hfd, ok_bind, hread]
    rfl
  have hend : (0 : Int) + ((c.range s.dev.size).length : Int) = (c.range s.dev.size).length := by
    omega
  rw [hload, h.pos]
  show Except.ok ((c.range s.dev.size).length,
    (⟨c.pos, 0, 0 + ((c.range s.dev.size).length : Int), _⟩ : Ibfilebuf)) = _
  rw [hend]
  rfl

theorem Over.reloaded (h : Over s c) {f : OpenFile}
    (hbytes : s.dev.world.disk.inode f.inode = c.bytes) (hpos : c.pos ≤ c.bytes.length) :
    Over (reloaded s c f) c := by
  have hlen := length_range c s.dev.size
  exact {
    file := ⟨_, rfl, hbytes, by
      show ((c.pos + (c.range s.dev.size).length : Nat) : Int) =
        (c.pos : Int) + (c.range s.dev.size).length
      omega⟩
    base := by
      show (0 : Int) ≤ c.pos
      omega
    next := by
      show (0 : Int) ≤ 0 ∧ (0 : Int) ≤ (c.range s.dev.size).length
      omega
    pos := by
      show (c.pos : Int) + 0 = c.pos
      omega
    stored := by
      show ((c.range s.dev.size).length : Int) ≤
        (c.range s.dev.size ++ s.dev.data.drop (c.range s.dev.size).length).length
      rw [List.length_append]
      omega
    window := by
      show (c.range s.dev.size ++ s.dev.data.drop (c.range s.dev.size).length).take
        (c.range s.dev.size).length = (c.bytes.drop c.pos).take (c.range s.dev.size).length
      rw [List.take_left, Cursor.range, List.take_eq_take_iff]
      rw [List.length_take, List.length_drop]
      omega
    inside := by
      show (c.pos : Int) + (c.range s.dev.size).length ≤ c.bytes.length
      omega
    size_pos := h.size_pos
    small := h.small }

end

theorem delivers_over : Ibstreambuf.Delivers Over where
  inside := by
    intro s c h
    have h1 := h.base
    have h2 := h.next
    have h3 := h.inside
    have h4 := h.small
    unfold maxOffset at h4
    omega
  ahead := by
    intro s c n h hn
    exact h.load hn
  bump := by
    intro s c n h hn
    have h2 := h.next
    have hpos : s.gbaseOffset + s.gnext = c.pos := h.pos
    exact { h with
      next := by
        show 0 ≤ s.gnext + n ∧ s.gnext + n ≤ s.gend
        omega
      pos := by
        show s.gbaseOffset + (s.gnext + n) = ((c.pos + n : Nat) : Int)
        omega }
  underflow := by
    intro s c h hfull
    obtain ⟨f, hfd, hbytes, hoff⟩ := h.file
    have h3 := h.inside
    have h4 := h.small
    have hpos : s.gbaseOffset + s.gnext = c.pos := h.pos
    have hlen := length_range c s.dev.size
    have havail : (reloaded s c f).available = (c.range s.dev.size).length := by
      show ((((c.range s.dev.size).length : Int) - 0) % 2 ^ 64).toNat = _
      unfold maxOffset at h4
      omega
    refine ⟨reloaded s c f, ?_, h.reloaded hbytes (by omega), ?_⟩
    · rw [havail]
      exact h.loadBuffer hfd hbytes (by omega)
    · intro hnone
      rw [havail, hlen] at hnone
      rcases h.size_pos with hsize | hempty
      · omega
      · rw [hempty, List.length_nil] at hnone h3 ⊢
        omega

section

variable {s : Ibfilebuf} {c : Cursor}

theorem Over.tell_end (h : Over s c) (hempty : s.gend = 0) :
    ∃ s', tell s .end_ = .ok (c.bytes.length, s') ∧ Over s' c := by
  obtain ⟨f, hfd, hbytes, hoff⟩ := h.file
  have h1 := h.base
  have hsame : f.offset = s.gbaseOffset.toNat := by omega
  refine ⟨s, ?_, h⟩
  have hneg : ¬s.gbaseOffset < 0 := by omega
  have hback : setFd s (some { f with offset := s.gbaseOffset.toNat }) = s := by
    rw [← hsame, ← hfd]
    rfl
  rw [tell, descriptor, hfd]
  show (lseek (setFd s (some (s.dev.world.seekEnd f))) s.gbaseOffset >>= _) = _
  have hseek : lseek (setFd s (some (s.dev.world.seekEnd f))) s.gbaseOffset = .ok s := by
    show (if s.gbaseOffset < 0 then throw Failure.invalidArgument else
      pure (setFd s (some { f with offset := s.gbaseOffset.toNat }))) = _
    rw [if_neg hneg, hback]
    rfl
  rw [hseek, ok_bind, World.seekEnd, hbytes]
  rfl

/-- One call; the size is not asked for in the middle of a block. -/
theorem Over.step (h : Over s c) {op : FetchOp} (hop : Sound s op) :
    ∃ s', step s op = .ok ((c.fetch op).1, s') ∧ Over s' (c.fetch op).2 := by
  cases op with
  | get =>
    obtain ⟨s', hs', h'⟩ := delivers_over.get h
    refine ⟨s', ?_, h'⟩
    rw [Ibfilebuf.step, hs']
    rfl
  | peek =>
    obtain ⟨s', hs', h'⟩ := delivers_over.peek h
    refine ⟨s', ?_, h'⟩
    rw [Ibfilebuf.step, hs']
    rfl
  | getn n =>
    obtain ⟨s', hs', h'⟩ := delivers_over.getn h n.toNat
    refine ⟨s', ?_, h'⟩
    rw [Ibfilebuf.step, hs']
    rfl
  | tell where_ =>
    cases where_ with
    | current =>
      refine ⟨s, ?_, h⟩
      rw [Ibfilebuf.step, Ibfilebuf.tell, h.pos]
      rfl
    | begin => exact ⟨s, rfl, h⟩
    | end_ =>
      obtain ⟨s', hs', h'⟩ := h.tell_end hop
      refine ⟨s', ?_, h'⟩
      rw [Ibfilebuf.step, hs']
      rfl

theorem Over.run (h : Over s c) {ops : List FetchOp} (hops : SoundRun s ops) :
    ∃ s', run s ops = .ok ((c.fetches ops).1, s') ∧ Over s' (c.fetches ops).2 := by
  induction ops generalizing s c with
  | nil => exact ⟨s, rfl, h⟩
  | cons op ops ih =>
    obtain ⟨hop, hrest⟩ := hops
    obtain ⟨s₁, hs₁, h₁⟩ := h.step hop
    rw [hs₁] at hrest
    obtain ⟨s', hs', h'⟩ := ih h₁ hrest
    refine ⟨s', ?_, h'⟩
    rw [Ibfilebuf.run, hs₁, ok_bind]
    show (Ibfilebuf.run s₁ ops >>= _) = _
    rw [hs']
    rfl

theorem over_open {path : String} {bytes : List UInt8}
    (hfile : s.dev.world.disk.content path = some bytes) (hfirst : s.gbaseOffset = 0)
    (hlen : bytes.length ≤ maxOffset) (hsize : 0 < s.dev.size ∨ bytes = []) :
    ∃ s₀, open_ s path = .ok s₀ ∧ Over s₀ ⟨bytes, 0⟩ := by
  obtain ⟨i, hdir, hbytes⟩ := Option.map_eq_some_iff.mp hfile
  have hopen : s.dev.world.open_ path ⟨false, false, false⟩ = .ok (s.dev.world, ⟨i, 0, false⟩) := by
    rw [World.open_, hdir]
    rfl
  refine ⟨⟨s.gbaseOffset, 0, 0, { s.dev with filename := path, fd := some ⟨i, 0, false⟩ }⟩, ?_, ?_⟩
  · rw [open_]
    show (Except.mapError Failure.errno (s.dev.world.open_ path _) >>= _) = _
    rw [hopen]
    rfl
  · exact {
      file := ⟨_, rfl, hbytes, by
        show (0 : Int) = s.gbaseOffset + 0
        omega⟩
      base := by
        show 0 ≤ s.gbaseOffset
        omega
      next := ⟨le_rfl, le_rfl⟩
      pos := by
        show s.gbaseOffset + 0 = 0
        omega
      stored := by
        show (0 : Int) ≤ s.dev.data.length
        omega
      window := by
        show s.dev.data.take 0 = (bytes.drop _).take 0
        rw [List.take_zero, List.take_zero]
      inside := by
        show s.gbaseOffset + 0 ≤ bytes.length
        omega
      size_pos := hsize
      small := hlen }

/-- A file is delivered in order, as long as its size is asked for between blocks only. -/
theorem file_delivered {path : String} {bytes : List UInt8}
    (hfile : s.dev.world.disk.content path = some bytes) (hfirst : s.gbaseOffset = 0)
    (hlen : bytes.length ≤ maxOffset) (hsize : 0 < s.dev.size ∨ bytes = []) (ops : List FetchOp)
    (hops : ∀ s₀, open_ s path = .ok s₀ → SoundRun s₀ ops) :
    ∃ s', (open_ s path >>= fun s₀ => run s₀ ops) = .ok ((Cursor.fetches ⟨bytes, 0⟩ ops).1, s') ∧
      s'.gpos = (Cursor.fetches ⟨bytes, 0⟩ ops).2.pos := by
  obtain ⟨s₀, hs₀, h₀⟩ := over_open hfile hfirst hlen hsize
  obtain ⟨s', hs', h'⟩ := h₀.run (hops s₀ hs₀)
  refine ⟨s', ?_, h'.pos⟩
  rw [hs₀, ok_bind, hs']

end

/-- A disk with one file of six bytes. -/
def sixBytes : World String :=
  ⟨⟨fun p => if p = "f" then some 0 else none, fun _ => [1, 2, 3, 4, 5, 6], 1⟩, []⟩

def blocksRun : List FetchOp :=
  [.tell .end_, .get, .peek, .tell .current, .getn 4, .tell .current, .getn 9, .get, .tell .end_]

theorem blocksRun_delivered :
    ∃ s', (open_ (create sixBytes 4) "f" >>= fun s₀ => run s₀ blocksRun) =
      .ok ([.position 6, .byte 1, .byte 2, .position 1, .bytes [2, 3, 4, 5], .position 5, .bytes [6],
        .failed .readPastEndOfStream, .position 6], s') := by
  have hsound : ∀ s₀, open_ (create sixBytes 4) "f" = .ok s₀ → SoundRun s₀ blocksRun := by
    have hall : (open_ (create sixBytes 4) "f").map (fun s₀ => decide (SoundRun s₀ blocksRun)) =
        .ok true := by decide +kernel
    intro s₀ hs₀
    rw [hs₀] at hall
    exact of_decide_eq_true (Except.ok.inj hall)
  have hfile : (create sixBytes 4).dev.world.disk.content "f" = some [1, 2, 3, 4, 5, 6] := by
    decide +kernel
  obtain ⟨s', hs', -⟩ := file_delivered hfile rfl (by decide) (.inl (by decide)) blocksRun hsound
  exact ⟨s', hs'⟩

/-- The size is asked for in the middle of the first block, which is then read again. -/
theorem block_read_again :
    ∃ s', (open_ (create sixBytes 4) "f" >>= fun s₀ => run s₀ [.get, .tell .end_, .getn 4]) =
      .ok ([.byte 1, .position 6, .bytes [2, 3, 4, 1]], s') ∧
    (Cursor.fetches ⟨[1, 2, 3, 4, 5, 6], 0⟩ [.get, .tell .end_, .getn 4]).1 =
      [.byte 1, .position 6, .bytes [2, 3, 4, 5]] := by
  have hrun : (open_ (create sixBytes 4) "f" >>= fun s₀ => run s₀ [.get, .tell .end_, .getn 4]).map
      Prod.fst = .ok [.byte 1, .position 6, .bytes [2, 3, 4, 1]] := by decide +kernel
  rcases hres : open_ (create sixBytes 4) "f" >>= fun s₀ => run s₀ [.get, .tell .end_, .getn 4] with
    e | ⟨rs, s'⟩
  · rw [hres] at hrun
    cases hrun
  · rw [hres] at hrun
    obtain rfl := Except.ok.inj hrun
    exact ⟨s', rfl, by decide⟩

end Ibfilebuf

end Nodeoze.Bstream
