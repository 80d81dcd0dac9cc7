import Nodeoze.Bstream.Obstreambuf

/-!
# The output buffer of a file

`obfilebuf` collects bytes in a vector and writes them with one `write` per flush.  It keeps track
of the descriptor's offset in `lastTouched` and calls `lseek` only if that differs from where the
window starts.

`AtEnd` is the state in which this works: what is in the window belongs right behind the file, and
the descriptor's offset is there too, or the file is in append mode.  Writing and flushing keep it.
`truncate` does so in append mode only: `ftruncate` leaves the offset where it was, but
`lastTouched` claims otherwise.
-/

namespace Nodeoze.Bstream

open Splice Posix

inductive OpenMode
  | atBegin
  | atEnd
  | append
  | truncate
  deriving DecidableEq, Repr

def OpenMode.toFlags : OpenMode → Flags
  | .append => ⟨true, false, true⟩
  | .truncate => ⟨true, true, false⟩
  | _ => ⟨true, false, false⟩

/-- Behind the window: the file system, the vector (of `size` bytes; the list leaves out zeros at
its end), and the file.  `m_is_open` is whether there is a descriptor. -/
structure Filebuf where
  world : World String
  data : List UInt8
  size : Nat
  filename : String
  mode : OpenMode
  fd : Option OpenFile

abbrev Obfilebuf := Obstreambuf Filebuf

namespace Obfilebuf

/-- `obfilebuf( mode, buffer_size )` -/
def create (world : World String) (mode : OpenMode) (size : Nat) : Obfilebuf :=
  { Obstreambuf.init ⟨world, [], size, "", mode, none⟩ with pend := size }

def isOpen (s : Obfilebuf) : Bool := s.dev.fd.isSome

/-- A call on a descriptor that is not open fails. -/
def descriptor (s : Obfilebuf) : Except Failure OpenFile :=
  match s.dev.fd with
  | some f => .ok f
  | none => .error (.errno .badf)

def setFile (s : Obfilebuf) (world : World String) (fd : Option OpenFile) : Obfilebuf :=
  { s with dev := { s.dev with world := world, fd := fd } }

/-- `::lseek( m_fd, off, SEEK_SET )` -/
def lseek (s : Obfilebuf) (off : Nat) : Except Failure Obfilebuf := do
  let f ← descriptor s
  pure (setFile s s.dev.world (some { f with offset := off }))

/-- `::write( m_fd, pbase(), n )` -/
def write (s : Obfilebuf) (n : Nat) : Except Failure Obfilebuf := do
  let f ← descriptor s
  let (world, f) ← (s.dev.world.write f ((pad 0 s.dev.data n).take n)).mapError .errno
  pure (setFile s world (some f))

def store (s : Obfilebuf) (off : Nat) (src : List UInt8) : Except Failure Obfilebuf :=
  if s.dev.size < off + src.length then throw .undefined
  else pure { s with dev := { s.dev with data := splice (pad 0 s.dev.data off) off src } }

/-- The `lseek` of `really_flush`. -/
def seekBase (s : Obfilebuf) : Except Failure Obfilebuf :=
  if s.lastTouched ≠ s.pbaseOffset then lseek s s.pbaseOffset else pure s

def reallyFlush (s : Obfilebuf) : Except Failure Obfilebuf := do
  let pos := s.ppos
  let s ← seekBase s
  let s ← write s s.pnext
  pure { s with pbaseOffset := pos, pnext := 0 }

instance : Sink Filebuf where
  store := store
  reallyFlush := reallyFlush

def reallyTouch (s : Obfilebuf) : Except Failure Obfilebuf := do
  let pos := s.ppos
  let s ← lseek s pos
  pure { s with lastTouched := pos }

instance : Virtuals Filebuf where
  reallyMakeWritable := pure
  reallyTouch := reallyTouch
  reallyOverflow s _ := pure s

/-- `really_seek`; a negative position is `std::errc::invalid_argument`. -/
def seek (s : Obfilebuf) (where_ : SeekAnchor) (offset : Int) : Except Failure Obfilebuf := do
  let s ← s.flush
  let result := s.target where_ offset
  if result < 0 then throw .invalidArgument
  else pure { s with pbaseOffset := result.toNat, pnext := 0 }

def truncate (s : Obfilebuf) : Except Failure Obfilebuf := do
  let s ← s.flush
  let pos := s.ppos
  let f ← descriptor s
  let s := setFile s (s.dev.world.truncate f pos) (some f)
  pure { s with highWatermark := pos, lastTouched := pos }

def close (s : Obfilebuf) : Except Failure Obfilebuf := do
  let s ← s.flush
  let _ ← descriptor s
  pure (setFile s s.dev.world none)

/-- `really_open` first closes a file that is still open. -/
def closeIfOpen (s : Obfilebuf) : Except Failure Obfilebuf := if isOpen s then close s else pure s

/-- `reset_ptrs`, and what `really_open` sets. -/
def openedAt (s : Obfilebuf) (endPos base : Nat) : Obfilebuf :=
  { s with highWatermark := endPos, pbaseOffset := base, lastTouched := base, pnext := 0,
           pend := s.dev.size, dirty := false }

/-- `open( filename, mode )` -/
def open_ (s : Obfilebuf) (filename : String) (mode : OpenMode) : Except Failure Obfilebuf := do
  let s : Obfilebuf := { s with dev := { s.dev with filename := filename, mode := mode } }
  let s ← closeIfOpen s
  let (world, f) ← (s.dev.world.open_ filename mode.toFlags).mapError Failure.errno
  let f := world.seekEnd f
  let endPos := f.offset
  if mode = .atEnd ∨ mode.toFlags.append then pure (openedAt (setFile s world (some f)) endPos endPos)
  else pure (openedAt (setFile s world (some { f with offset := 0 })) endPos 0)

/-! ### Writing at the end -/

/-- What is in the window belongs behind the file `i`, the descriptor's offset is there (or the file
is in append mode), and `c` is what the file holds once the window is written. -/
structure AtEnd (s : Obfilebuf) (i : Nat) (app : Bool) (c : List UInt8) : Prop where
  fd : ∃ off, s.dev.fd = some ⟨i, off, app⟩ ∧ (app = true ∨ off = s.pbaseOffset)
  base : s.pbaseOffset = (s.dev.world.disk.inode i).length
  content : c = s.dev.world.disk.inode i ++ (pad 0 s.dev.data s.pnext).take s.pnext
  bound : (s.dev.world.disk.inode i).length ≤ maxOffset
  touched : s.lastTouched = s.pbaseOffset
  dirty : 0 < s.pnext → s.dirty = true
  window : s.pend = s.dev.size
  room : s.pnext ≤ s.pend
  size_pos : 0 < s.dev.size
  writable : s.writable = true

/-- The one error of a system call that writing at the end can meet. -/
abbrev TooBig (e : Failure) : Prop := e = .errno .fbig

section

variable {s s' : Obfilebuf} {i : Nat} {app : Bool} {c : List UInt8}

/-- `s'` has gone on from `s`, writing to file `i` only, and is at the end of `c`. -/
structure Wrote (s s' : Obfilebuf) (i : Nat) (app : Bool) (c : List UInt8) : Prop where
  atEnd : AtEnd s' i app c
  touches : s.dev.world.Touches i s'.dev.world
  dev_size : s'.dev.size = s.dev.size

theorem Wrote.trans {s₁ s₂ s₃ : Obfilebuf} {c₂ c₃ : List UInt8} (h : Wrote s₁ s₂ i app c₂)
    (h' : Wrote s₂ s₃ i app c₃) : Wrote s₁ s₃ i app c₃ :=
  ⟨h'.atEnd, h.touches.trans h'.touches, h'.dev_size.trans h.dev_size⟩

theorem AtEnd.wrote (h : AtEnd s i app c) : Wrote s s i app c := ⟨h, .refl i _, rfl⟩

theorem length_window (data : List UInt8) (n : Nat) : ((pad 0 data n).take n).length = n := by
  rw [List.length_take, length_pad]
  omega

theorem AtEnd.length (h : AtEnd s i app c) : c.length = s.ppos := by
  rw [h.content, List.length_append, length_window, ← h.base, Obstreambuf.ppos]

theorem AtEnd.on_disk (h : AtEnd s i app c) (hnext : s.pnext = 0) :
    s.dev.world.disk.inode i = c := by
  have hc := h.content
  rw [hnext, List.take_zero, List.append_nil] at hc
  exact hc.symm

theorem AtEnd.write_spec (h : AtEnd s i app c) :
    Ends TooBig (write s s.pnext) fun s' => ∃ w off, s' = setFile s w (some ⟨i, off, app⟩) ∧
      s.dev.world.Touches i w ∧ w.disk.inode i = c ∧ (app = true ∨ off = c.length) ∧
      c.length ≤ maxOffset := by
  obtain ⟨off, hfd, hoff⟩ := h.fd
  have hdesc : descriptor s = .ok ⟨i, off, app⟩ := by rw [descriptor, hfd]
  rw [h.base] at hoff
  rcases s.dev.world.write_atEnd ⟨i, off, app⟩ ((pad 0 s.dev.data s.pnext).take s.pnext) rfl hoff with
    herr | ⟨w, f, hok, htouch, hc, hi, happ, hend, hlen⟩
  · rw [write, hdesc]
    show Ends TooBig (Except.mapError Failure.errno _ >>= _) _
    rw [herr]
    exact .error rfl
  · rw [write, hdesc]
    show Ends TooBig (Except.mapError Failure.errno _ >>= _) _
    rw [hok]
    obtain ⟨fi, foff, fapp⟩ := f
    simp only at hi happ hend
    subst hi happ
    rw [← h.content] at hc hend hlen
    refine .ok ⟨w, foff, rfl, htouch, hc, hend, ?_⟩
    rcases hlen with hnil | hlen
    · have hbound := h.bound
      rw [h.content, hnil, List.append_nil]
      exact hbound
    · exact hlen

theorem AtEnd.reallyFlush (h : AtEnd s i app c) :
    Ends TooBig (reallyFlush s) fun s' => ∃ w off,
      s' = { setFile s w (some ⟨i, off, app⟩) with pbaseOffset := c.length, pnext := 0 } ∧
      s.dev.world.Touches i w ∧ w.disk.inode i = c ∧ (app = true ∨ off = c.length) ∧
      c.length ≤ maxOffset := by
  have hseek : seekBase s = pure s := by rw [seekBase, if_neg (not_not.mpr h.touched)]
  rw [Obfilebuf.reallyFlush, hseek]
  show Ends TooBig (write s s.pnext >>= _) _
  refine h.write_spec.bind ?_
  rintro s₁ ⟨w, off, rfl, hw⟩
  exact .ok ⟨w, off, by rw [h.length], hw⟩

theorem flush_of_clean (h : s.dirty = false) : s.flush = .ok s := by
  rw [Obstreambuf.flush, h]
  rfl

theorem AtEnd.flush (h : AtEnd s i app c) :
    Ends TooBig s.flush fun s' => Wrote s s' i app c ∧ s'.pnext = 0 ∧ s'.dirty = false := by
  by_cases hdirty : s.dirty = true
  · rw [Obstreambuf.flush, if_pos hdirty]
    refine h.reallyFlush.bind ?_
    rintro s₁ ⟨w, off, rfl, htouch, hc, hoff, hbound⟩
    obtain ⟨n, hn⟩ := Obstreambuf.setHighWatermark_exists
      { setFile s w (some ⟨i, off, app⟩) with pbaseOffset := c.length, pnext := 0 }
    rw [hn]
    refine .ok ⟨⟨?_, htouch, rfl⟩, rfl, rfl⟩
    exact {
      fd := ⟨off, rfl, hoff⟩
      base := by rw [← hc]; rfl
      content := by rw [List.take_zero, List.append_nil]; exact hc.symm
      bound := by rw [← hc] at hbound; exact hbound
      touched := rfl
      dirty := fun hpos => absurd hpos (lt_irrefl 0)
      window := h.window
      room := Nat.zero_le _
      size_pos := h.size_pos
      writable := h.writable }
  · have hnext : s.pnext = 0 := by
      by_contra hne
      exact hdirty (h.dirty (Nat.pos_of_ne_zero hne))
    rw [Obstreambuf.flush, if_neg hdirty]
    exact .ok ⟨h.wrote, hnext, by simpa using hdirty⟩

theorem AtEnd.overflow (h : AtEnd s i app c) (n : Nat) :
    Ends TooBig (s.overflow n) fun s' => Wrote s s' i app c ∧ s'.pnext = 0 :=
  h.flush.bind fun _ h' => .ok ⟨h'.1, h'.2.1⟩

theorem AtEnd.prepare (h : AtEnd s i app c) : s.prepare = .ok s := by
  have hwritable : s.makeWritable = .ok s := by
    rw [Obstreambuf.makeWritable, if_pos h.writable]
    rfl
  have htouch : s.dirty = false → s.touch = .ok s := by
    intro hclean
    have hnext : s.pnext = 0 := by
      by_contra hne
      have hdirty := h.dirty (Nat.pos_of_ne_zero hne)
      rw [hclean] at hdirty
      cases hdirty
    have hpos : s.ppos = s.pbaseOffset := by rw [Obstreambuf.ppos, hnext, Nat.add_zero]
    rw [Obstreambuf.touch, hpos, if_neg (not_not.mpr h.touched)]
    rfl
  rw [Obstreambuf.prepare, hwritable]
  show (if s.dirty = true then pure s else s.touch) = _
  split_ifs with hdirty
  · rfl
  · exact htouch (by simpa using hdirty)

theorem window_splice (data src : List UInt8) (n : Nat) :
    (pad 0 (splice (pad 0 data n) n src) (n + src.length)).take (n + src.length) =
      (pad 0 data n).take n ++ src := by
  have hlen : n ≤ (pad 0 data n).length := by rw [length_pad]; omega
  have hpad : n + src.length ≤ (splice (pad 0 data n) n src).length := by
    simp only [splice, List.length_append, List.length_take, List.length_drop]
    omega
  rw [pad_of_le 0 hpad, take_splice _ _ _ hlen]

theorem place_eq (src : List UInt8) (hfit : s.pnext + src.length ≤ s.dev.size) :
    ∃ d, s.place src = .ok { s with
      dev := { s.dev with data := splice (pad 0 s.dev.data s.pnext) s.pnext src }
      pnext := s.pnext + src.length, dirty := true, dirtyStart := d } := by
  unfold Obstreambuf.place
  by_cases hdirty : s.dirty = true
  · refine ⟨s.dirtyStart, ?_⟩
    simp only [if_pos hdirty]
    show (store s s.pnext src >>= _) = _
    rw [store, if_neg (not_lt.mpr hfit)]
    rfl
  · refine ⟨s.pnext, ?_⟩
    simp only [if_neg hdirty]
    show (store { s with dirtyStart := s.pnext } s.pnext src >>= _) = _
    rw [store, if_neg (not_lt.mpr hfit)]
    rfl

theorem AtEnd.place (h : AtEnd s i app c) {src : List UInt8} (hroom : src.length ≤ s.pend - s.pnext) :
    Ends TooBig (s.place src) fun s' => Wrote s s' i app (c ++ src) := by
  have h1 := h.room
  have h2 := h.window
  obtain ⟨d, hd⟩ := place_eq (s := s) src (by omega)
  rw [hd]
  refine .ok ⟨?_, .refl i _, rfl⟩
  exact {
    fd := h.fd
    base := h.base
    content := by rw [window_splice, h.content, List.append_assoc]
    bound := h.bound
    touched := h.touched
    dirty := fun _ => rfl
    window := h.window
    room := by
      show s.pnext + src.length ≤ s.pend
      omega
    size_pos := h.size_pos
    writable := h.writable }

/-- At the end of a file the writing functions append. -/
theorem appends_wrote (s₀ : Obfilebuf) (i : Nat) (app : Bool) :
    Obstreambuf.Appends TooBig True fun s c => Wrote s₀ s i app c where
  prepare := by
    intro s c h
    rw [h.atEnd.prepare]
    exact .ok h
  overflow := by
    intro s c n h
    refine (h.atEnd.overflow n).imp ?_
    rintro s' ⟨hw, hnext⟩
    have h1 := hw.atEnd.window
    have h2 := hw.atEnd.size_pos
    exact ⟨h.trans hw, by omega⟩
  place := by
    intro s c src h hroom _
    exact (h.atEnd.place hroom).imp fun _ hw => h.trans hw

/-! ### A stream without a file -/

/-- The file is closed. -/
structure Shut (s : Obfilebuf) : Prop where
  fd : s.dev.fd = none
  dirty : 0 < s.pnext → s.dirty = true
  window : s.pend = s.dev.size
  room : s.pnext ≤ s.pend
  size_pos : 0 < s.dev.size
  writable : s.writable = true

/-- The error of a system call. -/
abbrev IsErrno (e : Failure) : Prop := ∃ x, e = .errno x

theorem Shut.lseek (h : Shut s) (off : Nat) : Obfilebuf.lseek s off = .error (.errno .badf) := by
  rw [Obfilebuf.lseek, descriptor, h.fd]
  rfl

/-- What was put in the window of a closed file cannot be written. -/
theorem Shut.flush (h : Shut s) (hdirty : s.dirty = true) : s.flush = .error (.errno .badf) := by
  have hflush : Obfilebuf.reallyFlush s = .error (.errno .badf) := by
    rw [Obfilebuf.reallyFlush, seekBase]
    split_ifs with htouched
    · rw [h.lseek]
      rfl
    · show (Obfilebuf.write s s.pnext >>= _) = _
      rw [Obfilebuf.write, descriptor, h.fd]
      rfl
  rw [Obstreambuf.flush, if_pos hdirty]
  show (Obfilebuf.reallyFlush s >>= _) = _
  rw [hflush]
  rfl

theorem appends_shut :
    Obstreambuf.Appends IsErrno True fun s c => Shut s ∧ (c ≠ [] → s.dirty = true) where
  prepare := by
    rintro s c ⟨h, hc⟩
    rw [Obstreambuf.prepare, Obstreambuf.makeWritable, if_pos h.writable]
    show Ends IsErrno (if s.dirty = true then pure s else s.touch) _
    split_ifs with hdirty
    · exact .ok ⟨h, hc⟩
    · rw [Obstreambuf.touch]
      split_ifs with htouched
      · show Ends IsErrno (Obfilebuf.lseek s s.ppos >>= _) _
        rw [h.lseek]
        exact .error ⟨_, rfl⟩
      · exact .ok ⟨h, hc⟩
  overflow := by
    rintro s c n ⟨h, hc⟩
    rw [Obstreambuf.overflow]
    by_cases hdirty : s.dirty = true
    · rw [h.flush hdirty]
      exact .error ⟨_, rfl⟩
    · rw [flush_of_clean (by simpa using hdirty)]
      have hnext : s.pnext = 0 := by
        by_contra hne
        exact hdirty (h.dirty (Nat.pos_of_ne_zero hne))
      have h1 := h.window
      have h2 := h.size_pos
      exact .ok ⟨⟨h, hc⟩, by omega⟩
  place := by
    rintro s c src ⟨h, hc⟩ hroom -
    have h1 := h.window
    have h2 := h.room
    obtain ⟨d, hd⟩ := place_eq (s := s) src (by omega)
    rw [hd]
    exact .ok ⟨⟨h.fd, fun _ => rfl, h.window, by show s.pnext + src.length ≤ s.pend; omega, h.size_pos,
      h.writable⟩, fun _ => rfl⟩

/-! ### A stream at rest -/

/-- Nothing is in the window, and the buffer believes to be at the end of the file `c`; where the
descriptor's offset is is left open. -/
structure Rests (s : Obfilebuf) (i : Nat) (app : Bool) (c : List UInt8) : Prop where
  fd : ∃ off, s.dev.fd = some ⟨i, off, app⟩
  content : s.dev.world.disk.inode i = c
  base : s.pbaseOffset = c.length
  bound : c.length ≤ maxOffset
  touched : s.lastTouched = c.length
  next : s.pnext = 0
  clean : s.dirty = false
  window : s.pend = s.dev.size
  size_pos : 0 < s.dev.size
  writable : s.writable = true

/-- The descriptor's offset is where the buffer believes, or does not matter. -/
def Aligned (s : Obfilebuf) : Prop :=
  ∀ f, s.dev.fd = some f → f.append = true ∨ f.offset = s.pbaseOffset

theorem Rests.atEnd (h : Rests s i app c) (ha : Aligned s) : AtEnd s i app c where
  fd := by
    obtain ⟨off, hoff⟩ := h.fd
    exact ⟨off, hoff, ha _ hoff⟩
  base := by rw [h.base, h.content]
  content := by rw [h.content, h.next, List.take_zero, List.append_nil]
  bound := by
    rw [h.content]
    exact h.bound
  touched := by rw [h.touched, h.base]
  dirty := by
    intro hpos
    rw [h.next] at hpos
    exact absurd hpos (lt_irrefl 0)
  window := h.window
  room := by
    rw [h.next]
    exact Nat.zero_le _
  size_pos := h.size_pos
  writable := h.writable

theorem AtEnd.rests (h : AtEnd s i app c) (hnext : s.pnext = 0) (hclean : s.dirty = false) :
    Rests s i app c where
  fd := by
    obtain ⟨off, hoff, -⟩ := h.fd
    exact ⟨off, hoff⟩
  content := h.on_disk hnext
  base := by rw [h.base, h.on_disk hnext]
  bound := by
    rw [← h.on_disk hnext]
    exact h.bound
  touched := by rw [h.touched, h.base, h.on_disk hnext]
  next := hnext
  clean := hclean
  window := h.window
  size_pos := h.size_pos
  writable := h.writable

theorem AtEnd.aligned (h : AtEnd s i app c) : Aligned s := by
  intro f hf
  obtain ⟨off, hoff, ha⟩ := h.fd
  rw [hoff] at hf
  rw [← Option.some.inj hf]
  exact ha

/-- Seeking back and truncating: the file gets shorter, and the descriptor stays as it is. -/
theorem Rests.cut (h : Rests s i app c) {n : Nat} (hn : n ≤ c.length) :
    ∃ s', (seek s .begin n >>= truncate) = .ok s' ∧ Rests s' i app (c.take n) ∧
      s'.dev.fd = s.dev.fd ∧ s.dev.world.Touches i s'.dev.world ∧ s'.dev.size = s.dev.size := by
  obtain ⟨off, hfd⟩ := h.fd
  have hseek : seek s .begin n = .ok { s with pbaseOffset := n, pnext := 0 } := by
    rw [seek, flush_of_clean h.clean]
    rfl
  have hdesc : descriptor { s with pbaseOffset := n, pnext := 0 } = .ok ⟨i, off, app⟩ := by
    rw [descriptor, hfd]
  have htrunc : truncate { s with pbaseOffset := n, pnext := 0 } = .ok
      { setFile { s with pbaseOffset := n, pnext := 0 } (s.dev.world.truncate ⟨i, off, app⟩ n)
          (some ⟨i, off, app⟩) with highWatermark := n, lastTouched := n } := by
    rw [truncate, flush_of_clean (s := { s with pbaseOffset := n, pnext := 0 }) h.clean]
    show (descriptor { s with pbaseOffset := n, pnext := 0 } >>= _) = _
    rw [hdesc]
    rfl
  have hbytes : (pad 0 (s.dev.world.disk.inode i) n).take n = c.take n := by
    rw [h.content, pad_of_le 0 hn]
  have hlen : (c.take n).length = n := by
    rw [List.length_take]
    omega
  have hcut := htrunc
  rw [← show (seek s .begin n >>= truncate) = truncate { s with pbaseOffset := n, pnext := 0 } by
    rw [hseek]; rfl] at hcut
  refine ⟨_, hcut, ?_, hfd.symm, World.touches_setInode _ _ _, rfl⟩
  exact {
    fd := ⟨off, rfl⟩
    content := by
      rw [← hbytes]
      exact Posix.Disk.setInode_self ..
    base := hlen.symm
    bound := by
      rw [hlen]
      exact hn.trans h.bound
    touched := hlen.symm
    next := rfl
    clean := h.clean
    window := h.window
    size_pos := h.size_pos
    writable := h.writable }

theorem Rests.close (h : Rests s i app c) :
    Obfilebuf.close s = .ok (setFile s s.dev.world none) := by
  obtain ⟨off, hfd⟩ := h.fd
  have hdesc : descriptor s = .ok ⟨i, off, app⟩ := by rw [descriptor, hfd]
  rw [Obfilebuf.close, flush_of_clean h.clean]
  show (descriptor s >>= _) = _
  rw [hdesc]
  rfl

/-- Reopening a file to append. -/
theorem open_append (hclosed : s.dev.fd = none) (hsize : 0 < s.dev.size)
    (hwritable : s.writable = true) {path : String}
    (hdir : s.dev.world.disk.dir path = some i)
    (hbound : (s.dev.world.disk.inode i).length ≤ maxOffset) :
    ∃ s', open_ s path .append = .ok s' ∧ Rests s' i true (s.dev.world.disk.inode i) ∧
      s'.dev.world = s.dev.world ∧ s'.dev.size = s.dev.size := by
  have hopen : s.dev.world.open_ path OpenMode.append.toFlags = .ok (s.dev.world, ⟨i, 0, true⟩) := by
    rw [World.open_, hdir]
    rfl
  refine ⟨openedAt (setFile { s with dev := { s.dev with filename := path, mode := .append } }
    s.dev.world (some (s.dev.world.seekEnd ⟨i, 0, true⟩))) (s.dev.world.disk.inode i).length
    (s.dev.world.disk.inode i).length, ?_, ?_, rfl, rfl⟩
  · rw [open_, closeIfOpen, isOpen, hclosed]
    show (Except.mapError Failure.errno (s.dev.world.open_ path _) >>= _) = _
    rw [hopen]
    rfl
  · exact {
      fd := ⟨_, rfl⟩
      content := rfl
      base := rfl
      bound := hbound
      touched := rfl
      next := rfl
      clean := rfl
      window := rfl
      size_pos := hsize
      writable := hwritable }

/-- Opening a file anew. -/
theorem open_truncate (hclosed : s.dev.fd = none) (hsize : 0 < s.dev.size)
    (hwritable : s.writable = true) (path : String) :
    ∃ s' i, open_ s path .truncate = .ok s' ∧ Rests s' i false [] ∧ Aligned s' ∧
      s.dev.world.Emptied s'.dev.world path i ∧ s'.dev.size = s.dev.size := by
  obtain ⟨w', i, hopen, hemptied⟩ := s.dev.world.open_trunc path false
  refine ⟨openedAt (setFile { s with dev := { s.dev with filename := path, mode := .truncate } }
    w' (some ⟨i, 0, false⟩)) (w'.disk.inode i).length 0, i, ?_, ?_, ?_, hemptied, rfl⟩
  · rw [open_, closeIfOpen, isOpen, hclosed]
    show (Except.mapError Failure.errno (s.dev.world.open_ path _) >>= _) = _
    rw [show s.dev.world.open_ path OpenMode.truncate.toFlags = _ from hopen]
    rfl
  · exact {
      fd := ⟨0, rfl⟩
      content := hemptied.empty
      base := rfl
      bound := Nat.zero_le _
      touched := rfl
      next := rfl
      clean := rfl
      window := rfl
      size_pos := hsize
      writable := hwritable }
  · intro f hf
    rw [← Option.some.inj hf]
    exact .inr rfl

end

end Obfilebuf

end Nodeoze.Bstream
