import Nodeoze.Lib.Fallible
import Nodeoze.Bstream.Obfilebuf

/-!
# The file buffer is a file

The abstract file system has the bytes of every file, and a `Writer` for the file that is open.  A
call on an `obfilebuf` does to the buffer, the descriptor and the disk what the abstract call does
to these: the position is always the abstract one, and after a flush the disk is.

This holds as long as every write finds the descriptor's offset where `lastTouched` says; after
`truncate` it need not be there.
-/

namespace Nodeoze.Bstream.Obfilebuf

open Splice Posix

/-! ### The two machines -/

/-- `really_seek` with an error code instead of an exception. -/
def seekTo (s : Obfilebuf) (where_ : SeekAnchor) (offset : Int) :
    Except Failure (Obfilebuf × Option Nat) := do
  let s ← s.flush
  let result := s.target where_ offset
  if result < 0 then pure (s, none)
  else pure ({ s with pbaseOffset := result.toNat, pnext := 0 }, some result.toNat)

inductive FileOp
  | open_ (path : String) (mode : OpenMode)
  | put (byte : UInt8)
  | putn (src : List UInt8)
  | filln (byte : UInt8) (n : Nat)
  | seek (where_ : SeekAnchor) (offset : Int)
  | tell (where_ : SeekAnchor)
  | flush
  | truncate
  | close
  deriving DecidableEq, Repr

def step (s : Obfilebuf) : FileOp → Except Failure Obfilebuf
  | .open_ path mode => open_ s path mode
  | .put byte => s.put byte
  | .putn src => s.putn src
  | .filln byte n => s.filln byte n
  | .seek where_ offset => do
    let (s, _) ← seekTo s where_ offset
    pure s
  | .tell where_ => pure (s.tell where_).2
  | .flush => s.flush
  | .truncate => truncate s
  | .close => close s

def run (s : Obfilebuf) : List FileOp → Except Failure Obfilebuf
  | [] => pure s
  | op :: ops => do
    let s ← step s op
    run s ops

/-- The files, the one that is open, and what it holds.  A buffer without a file goes on with what
it had. -/
structure FileView where
  disk : Disk String
  file : Option Nat
  cur : Writer UInt8

/-- The file that a path names, which is a new one if there is none. -/
def named (d : Disk String) (path : String) : Disk String × Nat :=
  match d.dir path with
  | some i => (d, i)
  | none =>
    ({ d.setInode d.next [] with dir := Function.update d.dir path (some d.next), next := d.next + 1 },
      d.next)

theorem open_named (w : World String) (path : String) {mode : OpenMode} (hmode : mode ≠ .append) :
    ∃ w', w.open_ path mode.toFlags = .ok (w', ⟨(named w.disk path).2, 0, false⟩) ∧
      w'.disk.dir = (named w.disk path).1.dir ∧ w'.disk.next = (named w.disk path).1.next ∧
      w'.disk.inode (named w.disk path).2 =
        (if mode = .truncate then [] else (named w.disk path).1.inode (named w.disk path).2) ∧
      ∀ j, j ≠ (named w.disk path).2 → w'.disk.inode j = (named w.disk path).1.inode j := by
  unfold named World.open_
  rcases hdir : w.disk.dir path with _ | i
  · cases mode with
    | append => exact absurd rfl hmode
    | truncate => exact ⟨_, rfl, rfl, rfl, Function.update_self .., fun _ _ => rfl⟩
    | atBegin | atEnd => exact ⟨_, rfl, rfl, rfl, rfl, fun _ _ => rfl⟩
  · cases mode with
    | append => exact absurd rfl hmode
    | truncate =>
      exact ⟨_, rfl, rfl, rfl, Function.update_self .., fun j hj => Function.update_of_ne hj _ _⟩
    | atBegin | atEnd => exact ⟨_, rfl, rfl, rfl, rfl, fun _ _ => rfl⟩

namespace FileView

/-- The files, with the bytes of the open one. -/
def files (a : FileView) : Disk String :=
  match a.file with
  | some i => a.disk.setInode i a.cur.bytes
  | none => a.disk

def detach (a : FileView) : FileView := { a with disk := a.files, file := none }

def tell (a : FileView) : SeekAnchor → Nat
  | .current => a.cur.pos
  | .end_ => a.cur.bytes.length
  | .begin => 0

def openFile (a : FileView) (path : String) (mode : OpenMode) : FileView :=
  let (disk, i) := named a.disk path
  let bytes := if mode = .truncate then [] else disk.inode i
  ⟨disk, some i, ⟨bytes, if mode = .atEnd then bytes.length else 0⟩⟩

def seek (a : FileView) (where_ : SeekAnchor) (offset : Int) : FileView :=
  let result := a.tell where_ + offset
  if result < 0 then a else { a with cur := ⟨a.cur.bytes, result.toNat⟩ }

def truncate (a : FileView) : FileView :=
  { a with cur := ⟨(pad 0 a.cur.bytes a.cur.pos).take a.cur.pos, a.cur.pos⟩ }

def write (a : FileView) (src : List UInt8) : FileView := { a with cur := a.cur.writes 0 src }

def step (a : FileView) : FileOp → FileView
  | .open_ path mode => a.detach.openFile path mode
  | .put byte => a.write [byte]
  | .putn src => a.write src
  | .filln byte n => a.write (List.replicate n byte)
  | .seek where_ offset => a.seek where_ offset
  | .tell _ => a
  | .flush => a
  | .truncate => a.truncate
  | .close => a.detach

def run (a : FileView) (ops : List FileOp) : FileView := ops.foldl step a

end FileView

/-! ### The window and the file -/

/-- The bytes in the window that are not written yet. -/
def unwritten (s : Obfilebuf) : List UInt8 := (pad 0 s.dev.data s.pnext).take s.pnext

/-- The buffer, over a file with the bytes `c`, stands for the writer `w`. -/
structure Stands (s : Obfilebuf) (c : List UInt8) (w : Writer UInt8) : Prop where
  view : w = (⟨c, s.pbaseOffset⟩ : Writer UInt8).writes 0 (unwritten s)
  next : s.dirty = false → s.pnext = 0
  low : c.length ≤ s.highWatermark
  high : s.highWatermark ≤ w.bytes.length
  extent : s.dirty = true → s.ppos ≤ w.bytes.length
  settled : s.dirty = true → s.lastTouched = s.pbaseOffset ∧
    ∀ f, s.dev.fd = some f → f.offset = s.pbaseOffset
  file : ∀ f, s.dev.fd = some f → f.append = false ∧ s.dev.world.disk.inode f.inode = c
  window : s.pend = s.dev.size
  room : s.pnext ≤ s.pend
  size_pos : 0 < s.dev.size
  writable : s.writable = true

/-- A write that starts now goes to the right place. -/
def Ready (s : Obfilebuf) : Prop :=
  s.dirty = false → s.lastTouched = s.ppos → ∀ f, s.dev.fd = some f → f.offset = s.ppos

/-- A write has started, or the descriptor is known to be where it starts. -/
def Prepared (s : Obfilebuf) : Prop :=
  s.dirty = true ∨ (s.lastTouched = s.ppos ∧ ∀ f, s.dev.fd = some f → f.offset = s.ppos)

/-- The same file is open, and no other one has changed. -/
structure Stays (s s' : Obfilebuf) : Prop where
  inode : s'.dev.fd.map OpenFile.inode = s.dev.fd.map OpenFile.inode
  dir : s'.dev.world.disk.dir = s.dev.world.disk.dir
  next : s'.dev.world.disk.next = s.dev.world.disk.next
  others : ∀ j, s.dev.fd.map OpenFile.inode ≠ some j →
    s'.dev.world.disk.inode j = s.dev.world.disk.inode j

section

variable {s s' s'' : Obfilebuf} {c : List UInt8} {w : Writer UInt8}

/-- Only the file that is open was touched. -/
theorem Stays.of_touches {f : OpenFile} (hfd : s.dev.fd = some f)
    (hfd' : s'.dev.fd.map OpenFile.inode = some f.inode)
    (ht : s.dev.world.Touches f.inode s'.dev.world) : Stays s s' where
  inode := by
    rw [hfd, hfd']
    rfl
  dir := ht.disk.dir
  next := ht.disk.next
  others := by
    intro j hj
    rw [hfd] at hj
    exact ht.disk.inode j fun heq => hj (congrArg some heq.symm)

/-- A call on the descriptor, which fails when no file is open. -/
theorem ends_descriptor {α : Type} {k : OpenFile → Except Failure α} {P : α → Prop}
    (h : ∀ f, s.dev.fd = some f → Ends IsErrno (k f) P) : Ends IsErrno (descriptor s >>= k) P := by
  unfold descriptor
  rcases hfd : s.dev.fd with _ | f
  · exact .error ⟨_, rfl⟩
  · exact h f hfd

theorem Stays.refl (s : Obfilebuf) : Stays s s := ⟨rfl, rfl, rfl, fun _ _ => rfl⟩

theorem Stays.trans (h : Stays s s') (h' : Stays s' s'') : Stays s s'' where
  inode := h'.inode.trans h.inode
  dir := h'.dir.trans h.dir
  next := h'.next.trans h.next
  others := by
    intro j hj
    rw [h'.others j (by rw [h.inode]; exact hj), h.others j hj]

theorem length_unwritten (s : Obfilebuf) : (unwritten s).length = s.pnext :=
  length_window s.dev.data s.pnext

theorem Stands.pos (h : Stands s c w) : w.pos = s.ppos := by
  rw [h.view, Writer.writes_pos, length_unwritten]
  rfl

/-- With a clean buffer the file is what the buffer stands for. -/
theorem Stands.clean (h : Stands s c w) (hclean : s.dirty = false) : w.bytes = c := by
  have hnil : unwritten s = [] := by
    rw [← List.length_eq_zero_iff, length_unwritten, h.next hclean]
  rw [h.view, hnil, Writer.writes_nil]

theorem Stands.length_le (h : Stands s c w) : w.bytes.length ≤ max c.length s.ppos := by
  rw [h.view]
  unfold Writer.writes
  split_ifs
  · exact le_max_left _ _
  · rw [Writer.length_write, length_unwritten]
    exact le_rfl

/-- The state after the window was written. -/
theorem Stands.written (h : Stands s c w) (hdirty : s.dirty = true) {f : OpenFile}
    (hfd : s.dev.fd = some f) {w' : World String} (ht : s.dev.world.Touches f.inode w')
    (hbytes : w'.disk.inode f.inode = w.bytes) :
    let s' : Obfilebuf := { setFile s w' (some { f with offset := s.ppos }) with
      pbaseOffset := s.ppos, pnext := 0, highWatermark := max s.highWatermark s.ppos
      lastTouched := s.ppos, dirty := false }
    Stands s' w.bytes w ∧ Stays s s' := by
  have hlen := h.length_le
  have hlow := h.low
  have hhigh := h.high
  have hextent := h.extent hdirty
  constructor
  · exact {
      view := by
        show w = (⟨w.bytes, s.ppos⟩ : Writer UInt8)
        rw [← h.pos]
      next := fun _ => rfl
      low := by
        show w.bytes.length ≤ max s.highWatermark s.ppos
        omega
      high := by
        show max s.highWatermark s.ppos ≤ w.bytes.length
        omega
      extent := fun hd => nomatch hd
      settled := fun hd => nomatch hd
      file := by
        intro g hg
        rw [← Option.some.inj hg]
        exact ⟨(h.file f hfd).1, hbytes⟩
      window := h.window
      room := Nat.zero_le _
      size_pos := h.size_pos
      writable := h.writable }
  · exact .of_touches hfd rfl ht

theorem Stands.flush (h : Stands s c w) :
    Ends IsErrno s.flush fun s' => Stands s' w.bytes w ∧ Stays s s' ∧ s'.dirty = false ∧
      (s.dirty = true → Prepared s') ∧ (s.dirty = false → s' = s) := by
  by_cases hdirty : s.dirty = true
  · obtain ⟨htouched, hoffset⟩ := h.settled hdirty
    have hseek : seekBase s = pure s := by rw [seekBase, if_neg (not_not.mpr htouched)]
    rw [Obstreambuf.flush, if_pos hdirty]
    show Ends IsErrno (Obfilebuf.reallyFlush s >>= _) _
    rw [Obfilebuf.reallyFlush, hseek]
    show Ends IsErrno ((write s s.pnext >>= _) >>= _) _
    rcases hfd : s.dev.fd with _ | f
    · rw [write, descriptor, hfd]
      exact .error ⟨_, rfl⟩
    · obtain ⟨happ, hc⟩ := h.file f hfd
      have hwrite : write s s.pnext =
          ((s.dev.world.write f (unwritten s)).mapError .errno >>= fun r =>
            pure (setFile s r.1 (some r.2))) := by
        rw [write, descriptor, hfd]
        rfl
      rw [hwrite]
      rcases s.dev.world.write_offset happ (unwritten s) hc with herr | ⟨w', hok, ht, hbytes⟩
      · rw [herr]
        exact .error ⟨_, rfl⟩
      · rw [hok]
        have hoff : f.offset + (unwritten s).length = s.ppos := by
          rw [hoffset f hfd, length_unwritten]
          rfl
        have hview : w'.disk.inode f.inode = w.bytes := by
          rw [hbytes, hoffset f hfd, h.view]
        rw [hoff]
        let s₁ : Obfilebuf := { setFile s w' (some { f with offset := s.ppos }) with
          pbaseOffset := s.ppos, pnext := 0 }
        show Ends IsErrno (.ok { s₁.setHighWatermark with
          lastTouched := s₁.setHighWatermark.ppos, dirty := false }) _
        rw [Obstreambuf.setHighWatermark_of_dirty (s := s₁) hdirty]
        obtain ⟨hstands, hstays⟩ := h.written hdirty hfd ht hview
        refine .ok ⟨hstands, hstays, rfl, fun _ => .inr ⟨rfl, ?_⟩, ?_⟩
        · intro g hg
          rw [← Option.some.inj hg]
          rfl
        · intro hclean
          rw [hdirty] at hclean
          cases hclean
  · have hclean : s.dirty = false := by simpa using hdirty
    rw [flush_of_clean hclean]
    rw [h.clean hclean]
    exact .ok ⟨h, .refl s, hclean, fun hd => absurd hd hdirty, fun _ => rfl⟩

/-! ### Writing -/

theorem Stands.prepare (h : Stands s c w) (hready : Ready s) :
    Ends IsErrno s.prepare fun s' => Stands s' c w ∧ Prepared s' ∧ Stays s s' := by
  rw [Obstreambuf.prepare, Obstreambuf.makeWritable, if_pos h.writable]
  show Ends IsErrno (if s.dirty = true then pure s else s.touch) _
  split_ifs with hdirty
  · exact .ok ⟨h, .inl hdirty, .refl s⟩
  · have hclean : s.dirty = false := by simpa using hdirty
    rw [Obstreambuf.touch]
    split_ifs with htouched
    · show Ends IsErrno (lseek s s.ppos >>= _) _
      rcases hfd : s.dev.fd with _ | f
      · rw [lseek, descriptor, hfd]
        exact .error ⟨_, rfl⟩
      · rw [lseek, descriptor, hfd]
        refine .ok ⟨?_, .inr ⟨rfl, ?_⟩, ?_⟩
        · exact { h with
            settled := fun hd => absurd hd hdirty
            file := by
              intro g hg
              rw [← Option.some.inj hg]
              exact h.file f hfd }
        · intro g hg
          rw [← Option.some.inj hg]
          rfl
        · exact ⟨by rw [hfd]; rfl, rfl, rfl, fun _ _ => rfl⟩
    · have hsame : s.lastTouched = s.ppos := not_not.mp htouched
      exact .ok ⟨h, .inr ⟨hsame, hready hclean hsame⟩, .refl s⟩

theorem Stands.place (h : Stands s c w) (hp : Prepared s) {src : List UInt8}
    (hroom : src.length ≤ s.pend - s.pnext) (hsrc : src = [] → w.pos ≤ w.bytes.length) :
    Ends IsErrno (s.place src) fun s' => Stands s' c (w.writes 0 src) ∧ Prepared s' ∧ Stays s s' := by
  have hwindow := h.window
  have hnext := h.room
  obtain ⟨d, hd⟩ := place_eq (s := s) src (by omega)
  rw [hd]
  have hlen := Writer.length_le_writes 0 w src
  have hlow := h.low
  have hhigh := h.high
  refine .ok ⟨?_, .inl rfl, ⟨rfl, rfl, rfl, fun _ _ => rfl⟩⟩
  exact {
    view := by
      have hmore : unwritten { s with
          dev := { s.dev with data := splice (pad 0 s.dev.data s.pnext) s.pnext src }
          pnext := s.pnext + src.length, dirty := true, dirtyStart := d } = unwritten s ++ src :=
        window_splice s.dev.data src s.pnext
      rw [hmore, ← Writer.writes_append, ← h.view]
    next := fun hclean => nomatch hclean
    low := h.low
    high := by
      show s.highWatermark ≤ _
      omega
    extent := by
      intro _
      have hpos := Writer.pos_le_writes 0 w hsrc
      rw [Writer.writes_pos, h.pos] at hpos
      show s.pbaseOffset + (s.pnext + src.length) ≤ _
      rw [Obstreambuf.ppos] at hpos
      omega
    settled := by
      intro _
      rcases hp with hdirty | ⟨htouched, hoffset⟩
      · exact h.settled hdirty
      · by_cases hdirty : s.dirty = true
        · exact h.settled hdirty
        · have hzero : s.pnext = 0 := h.next (by simpa using hdirty)
          rw [Obstreambuf.ppos, hzero, Nat.add_zero] at htouched hoffset
          exact ⟨htouched, hoffset⟩
    file := h.file
    window := h.window
    room := by
      show s.pnext + src.length ≤ s.pend
      omega
    size_pos := h.size_pos
    writable := h.writable }

/-- From `s₀`, which stood for `w₀`, the bytes `bs` have been written. -/
def Writing (s₀ : Obfilebuf) (w₀ : Writer UInt8) (s : Obfilebuf) (bs : List UInt8) : Prop :=
  ∃ c, Stands s c (w₀.writes 0 bs) ∧ Prepared s ∧ Stays s₀ s

theorem appends_writing (s₀ : Obfilebuf) (w₀ : Writer UInt8) :
    Obstreambuf.Appends IsErrno (w₀.pos ≤ w₀.bytes.length) (Writing s₀ w₀) where
  prepare := by
    rintro s bs ⟨c, h, hp, hstays⟩
    refine (h.prepare ?_).imp ?_
    · intro hclean _
      rcases hp with hdirty | ⟨-, hoffset⟩
      · rw [hclean] at hdirty
        cases hdirty
      · exact hoffset
    · rintro s' ⟨h', hp', hstays'⟩
      exact ⟨c, h', hp', hstays.trans hstays'⟩
  overflow := by
    rintro s bs n ⟨c, h, hp, hstays⟩
    refine h.flush.bind ?_
    rintro s' ⟨h', hstays', hclean', hdirty, hclean⟩
    have hp' : Prepared s' := by
      by_cases hd : s.dirty = true
      · exact hdirty hd
      · rw [hclean (by simpa using hd)]
        exact hp
    have hroom : s'.pnext < s'.pend := by
      rw [h'.next hclean', h'.window]
      exact h'.size_pos
    exact .ok ⟨⟨_, h', hp', hstays.trans hstays'⟩, hroom⟩
  place := by
    rintro s bs src ⟨c, h, hp, hstays⟩ hroom hsrc
    refine (h.place hp hroom ?_).imp ?_
    · intro hnil
      exact Writer.pos_le_writes 0 w₀ fun _ => hsrc hnil
    · rintro s' ⟨h', hp', hstays'⟩
      rw [Writer.writes_append] at h'
      exact ⟨c, h', hp', hstays.trans hstays'⟩

theorem Stands.prepare_writing (h : Stands s c w) (hready : Ready s) :
    Ends IsErrno s.prepare fun s' => Writing s w s' [] :=
  (h.prepare hready).imp fun _ hs' => ⟨c, hs'⟩

/-! ### The other calls -/

theorem Stands.tell_end (h : Stands s c w) : (s.tell .end_).1 = w.bytes.length := by
  have hlow := h.low
  have hhigh := h.high
  by_cases hdirty : s.dirty = true
  · have hmark : (s.tell .end_).1 = max s.highWatermark s.ppos := by rw [s.tell_end_fst, if_pos hdirty]
    have hlen := h.length_le
    have hextent := h.extent hdirty
    rw [hmark]
    omega
  · have hclean := h.clean (by simpa using hdirty)
    have hmark : (s.tell .end_).1 = s.highWatermark := by rw [s.tell_end_fst, if_neg hdirty]
    rw [hclean] at hhigh
    rw [hmark, hclean]
    omega

theorem Stands.tell_eq (h : Stands s c w) (a : FileView) (ha : a.cur = w) (where_ : SeekAnchor) :
    (s.tell where_).1 = a.tell where_ := by
  cases where_ with
  | current =>
    show s.ppos = a.cur.pos
    rw [ha, h.pos]
  | end_ =>
    show (s.tell .end_).1 = a.cur.bytes.length
    rw [ha, h.tell_end]
  | begin => rfl

/-- `tell` may raise the high watermark. -/
theorem Stands.tell (h : Stands s c w) (where_ : SeekAnchor) :
    Stands (s.tell where_).2 c w ∧ Stays s (s.tell where_).2 := by
  rcases s.tell_snd where_ with heq | ⟨hdirty, heq⟩
  · rw [heq]
    exact ⟨h, .refl s⟩
  · rw [heq]
    have hlow := h.low
    have hhigh := h.high
    have hextent := h.extent hdirty
    refine ⟨?_, rfl, rfl, rfl, fun _ _ => rfl⟩
    exact { h with
      low := by
        show c.length ≤ max s.highWatermark s.ppos
        omega
      high := by
        show max s.highWatermark s.ppos ≤ w.bytes.length
        omega }

theorem Stands.seekTo (h : Stands s c w) (where_ : SeekAnchor) (offset : Int) (a : FileView)
    (ha : a.cur = w) :
    Ends IsErrno (seekTo s where_ offset) fun r =>
      Stands r.1 w.bytes (a.seek where_ offset).cur ∧ Stays s r.1 := by
  refine h.flush.bind ?_
  rintro s₁ ⟨h₁, hstays, hclean, -, -⟩
  have hmark : s₁.highWatermark = w.bytes.length := le_antisymm h₁.high h₁.low
  have htarget : s₁.target where_ offset = a.tell where_ + offset := by
    cases where_ with
    | current =>
      show (s₁.ppos : Int) + offset = a.cur.pos + offset
      rw [ha, h₁.pos]
    | end_ =>
      show (s₁.highWatermark : Int) + offset = a.cur.bytes.length + offset
      rw [ha, hmark]
    | begin =>
      show offset = ((0 : Nat) : Int) + offset
      omega
  have hzero := h₁.next hclean
  show Ends IsErrno (if s₁.target where_ offset < 0 then _ else _) _
  rw [FileView.seek, ← htarget]
  split_ifs
  · rw [ha]
    exact .ok ⟨h₁, hstays⟩
  · rw [ha]
    refine .ok ⟨?_, hstays.trans ⟨rfl, rfl, rfl, fun _ _ => rfl⟩⟩
    exact { h₁ with
      view := rfl
      next := fun _ => rfl
      extent := fun hd => by rw [show s₁.dirty = true from hd] at hclean; cases hclean
      settled := fun hd => by rw [show s₁.dirty = true from hd] at hclean; cases hclean
      room := Nat.zero_le _ }

theorem Stands.truncate (h : Stands s c w) :
    Ends IsErrno (truncate s) fun s' =>
      Stands s' ((pad 0 w.bytes w.pos).take w.pos) ⟨(pad 0 w.bytes w.pos).take w.pos, w.pos⟩ ∧
      Stays s s' ∧ s'.dev.fd.isSome := by
  refine h.flush.bind ?_
  rintro s₁ ⟨h₁, hstays, hclean, -, -⟩
  refine ends_descriptor fun f hfd => ?_
  obtain ⟨happ, hc⟩ := h₁.file f hfd
  have hpos : s₁.ppos = w.pos := h₁.pos.symm
  have hzero := h₁.next hclean
  have hbase : s₁.pbaseOffset = w.pos := by
    rw [← hpos, Obstreambuf.ppos, hzero, Nat.add_zero]
  have hlen : ((pad 0 w.bytes w.pos).take w.pos).length = w.pos := length_window w.bytes w.pos
  have ht := World.touches_setInode s₁.dev.world f.inode
    ((pad 0 (s₁.dev.world.disk.inode f.inode) s₁.ppos).take s₁.ppos)
  refine .ok ⟨?_, hstays.trans ?_, rfl⟩
  · exact {
      view := by
        have hnil : unwritten s₁ = [] := by
          rw [← List.length_eq_zero_iff, length_unwritten, hzero]
        show _ = Writer.writes 0 ⟨_, s₁.pbaseOffset⟩ (unwritten s₁)
        rw [hnil, Writer.writes_nil, hbase]
      next := h₁.next
      low := by
        show _ ≤ s₁.ppos
        rw [hlen, hpos]
      high := by
        show s₁.ppos ≤ _
        rw [hlen, hpos]
      extent := fun hd => by rw [show s₁.dirty = true from hd] at hclean; cases hclean
      settled := fun hd => by rw [show s₁.dirty = true from hd] at hclean; cases hclean
      file := by
        intro g hg
        rw [← Option.some.inj hg]
        refine ⟨happ, ?_⟩
        show (s₁.dev.world.disk.setInode f.inode _).inode f.inode = _
        rw [Disk.setInode_self, hc, hpos]
      window := h₁.window
      room := h₁.room
      size_pos := h₁.size_pos
      writable := h₁.writable }
  · exact .of_touches hfd rfl ht

theorem Stands.close (h : Stands s c w) :
    Ends IsErrno (close s) fun s' => Stands s' w.bytes w ∧ s'.dev.fd = none ∧ s'.dirty = false ∧
      ∃ s₁, Stands s₁ w.bytes w ∧ Stays s s₁ ∧ s₁.dirty = false ∧
        s₁.dev.world = s'.dev.world := by
  refine h.flush.bind ?_
  rintro s₁ ⟨h₁, hstays, hclean, -, -⟩
  refine ends_descriptor fun f hfd => .ok ⟨?_, rfl, hclean, s₁, h₁, hstays, hclean, rfl⟩
  exact { h₁ with
    settled := fun hd => by rw [show s₁.dirty = true from hd] at hclean; cases hclean
    file := by
      intro g hg
      cases hg }

end

/-! ### The disk -/

structure Sim (s : Obfilebuf) (a : FileView) : Prop where
  stands : ∃ c, Stands s c a.cur
  fd : s.dev.fd.map OpenFile.inode = a.file
  dir : s.dev.world.disk.dir = a.disk.dir
  next : s.dev.world.disk.next = a.disk.next
  others : ∀ j, a.file ≠ some j → s.dev.world.disk.inode j = a.disk.inode j

namespace Sim

variable {s s' : Obfilebuf} {a : FileView} {c : List UInt8} {w : Writer UInt8}

/-- What a call on the open file does. -/
theorem stays (h : Sim s a) (hstays : Stays s s') (hs' : Stands s' c w) :
    Sim s' { a with cur := w } where
  stands := ⟨c, hs'⟩
  fd := hstays.inode.trans h.fd
  dir := hstays.dir.trans h.dir
  next := hstays.next.trans h.next
  others := by
    intro j hj
    rw [hstays.others j (by rw [h.fd]; exact hj)]
    exact h.others j hj

/-- With a clean buffer the disk is the abstract one. -/
theorem synced (h : Sim s a) (hclean : s.dirty = false) : s.dev.world.disk = a.files := by
  have hinode : s.dev.world.disk.inode = a.files.inode := by
    funext j
    unfold FileView.files
    rcases hfile : a.file with _ | i
    · exact h.others j (by rw [hfile]; exact nofun)
    · show _ = Function.update a.disk.inode i a.cur.bytes j
      by_cases hj : j = i
      · obtain ⟨c, hc⟩ := h.stands
        obtain ⟨f, hf, hfi⟩ := Option.map_eq_some_iff.mp (h.fd.trans hfile)
        rw [hj, Function.update_self, hc.clean hclean, ← (hc.file f hf).2, hfi]
      · rw [Function.update_of_ne hj]
        exact h.others j (by rw [hfile]; exact fun heq => hj (Option.some.inj heq).symm)
  have hdir : a.files.dir = a.disk.dir := by
    unfold FileView.files
    split <;> rfl
  have hnext : a.files.next = a.disk.next := by
    unfold FileView.files
    split <;> rfl
  apply Disk.ext
  · rw [hdir, h.dir]
  · exact hinode
  · rw [hnext, h.next]

theorem disk_eq (h : Sim s a) (hfd : s.dev.fd = none) : s.dev.world.disk = a.disk := by
  have hfile : a.file = none := by
    rw [← h.fd, hfd]
    rfl
  apply Disk.ext h.dir ?_ h.next
  funext j
  exact h.others j (by rw [hfile]; exact nofun)

theorem close (h : Sim s a) :
    Ends IsErrno (close s) fun s' => Sim s' a.detach ∧ s'.dev.fd = none ∧ s'.dirty = false := by
  obtain ⟨c, hc⟩ := h.stands
  refine hc.close.imp ?_
  rintro t ⟨ht, hfd, hclean, s₁, hs₁, hstays, hclean₁, hworld⟩
  have h₁ : Sim s₁ a := h.stays hstays hs₁
  have hdisk : t.dev.world.disk = a.files := by
    rw [← hworld]
    exact h₁.synced hclean₁
  refine ⟨⟨⟨_, ht⟩, ?_, ?_, ?_, ?_⟩, hfd, hclean⟩
  · rw [hfd]
    rfl
  · rw [hdisk]
    rfl
  · rw [hdisk]
    rfl
  · intro j _
    rw [hdisk]
    rfl

theorem closeIfOpen (h : Sim s a) :
    Ends IsErrno (closeIfOpen s) fun s' => Sim s' a.detach ∧ s'.dev.fd = none := by
  rw [Obfilebuf.closeIfOpen, isOpen]
  split_ifs with hopen
  · exact h.close.imp fun _ hs' => ⟨hs'.1, hs'.2.1⟩
  · have hnone : s.dev.fd = none := by simpa using hopen
    have hfile : a.file = none := by
      have hfd := h.fd
      rw [hnone] at hfd
      exact hfd.symm
    have hsame : a.detach = a := by
      rw [FileView.detach, FileView.files, hfile]
      show (⟨a.disk, none, a.cur⟩ : FileView) = a
      rw [← hfile]
    rw [hsame]
    exact .ok ⟨h, hnone⟩

/-- The state right after a file was opened, with the position at `base`. -/
theorem openedAt (h : Sim s a) {world : World String} {d : Disk String}
    {i base : Nat} {bytes : List UInt8} (hdir : world.disk.dir = d.dir)
    (hnext : world.disk.next = d.next) (hbytes : world.disk.inode i = bytes)
    (hothers : ∀ j, j ≠ i → world.disk.inode j = d.inode j) :
    Sim (openedAt (setFile s world (some ⟨i, base, false⟩)) bytes.length base)
      ⟨d, some i, ⟨bytes, base⟩⟩ := by
  obtain ⟨c, hc⟩ := h.stands
  refine ⟨⟨bytes, ?_⟩, rfl, hdir, hnext, ?_⟩
  · exact {
      view := rfl
      next := fun _ => rfl
      low := le_rfl
      high := le_rfl
      extent := fun hd => nomatch hd
      settled := fun hd => nomatch hd
      file := by
        intro f hf
        rw [← Option.some.inj hf]
        exact ⟨rfl, hbytes⟩
      window := rfl
      room := Nat.zero_le _
      size_pos := hc.size_pos
      writable := hc.writable }
  · intro j hj
    exact hothers j fun heq => hj (congrArg some heq.symm)

theorem open_ (h : Sim s a) (path : String) {mode : OpenMode} (hmode : mode ≠ .append) :
    Ends IsErrno (open_ s path mode) fun s' => Sim s' (a.detach.openFile path mode) := by
  have h₀ : Sim { s with dev := { s.dev with filename := path, mode := mode } } a := by
    obtain ⟨c, hc⟩ := h.stands
    exact ⟨⟨c, hc.view, hc.next, hc.low, hc.high, hc.extent, hc.settled, hc.file, hc.window, hc.room,
      hc.size_pos, hc.writable⟩, h.fd, h.dir, h.next, h.others⟩
  refine h₀.closeIfOpen.bind ?_
  rintro s₁ ⟨h₁, hfd⟩
  obtain ⟨w', hopen, hdir, hnext, hbytes, hothers⟩ := open_named s₁.dev.world path hmode
  rw [h₁.disk_eq hfd] at hopen hdir hnext hbytes hothers
  have happ : mode.toFlags.append = false := by
    cases mode <;> first | rfl | exact absurd rfl hmode
  rw [hopen]
  show Ends IsErrno (if mode = .atEnd ∨ mode.toFlags.append then pure _ else pure _) _
  rw [happ]
  show Ends IsErrno (if mode = .atEnd ∨ false = true then
    pure (Obfilebuf.openedAt (setFile s₁ w' (some ⟨_, (w'.disk.inode _).length, false⟩))
      (w'.disk.inode _).length (w'.disk.inode _).length) else
    pure (Obfilebuf.openedAt (setFile s₁ w' (some ⟨_, 0, false⟩)) (w'.disk.inode _).length 0)) _
  rw [hbytes, FileView.openFile]
  by_cases hend : mode = .atEnd
  · rw [if_pos (.inl hend)]
    simp only [if_pos hend]
    exact .ok (h₁.openedAt hdir hnext hbytes hothers)
  · have hneither : ¬(mode = .atEnd ∨ false = true) := by simpa using hend
    rw [if_neg hneither]
    simp only [if_neg hend]
    exact .ok (h₁.openedAt hdir hnext hbytes hothers)

theorem write (h : Sim s a) (hready : Ready s) {src : List UInt8}
    {call : Except Failure Obfilebuf}
    (hcall : ∀ w, (w.pos ≤ w.bytes.length ∨ src ≠ []) →
      Ends IsErrno s.prepare (Writing s w · []) → Ends IsErrno call (Writing s w · src))
    (hsrc : src = [] → (s.tell .current).1 ≤ (s.tell .end_).1) :
    Ends IsErrno call fun s' => Sim s' (a.write src) := by
  obtain ⟨c, hc⟩ := h.stands
  have hroom : a.cur.pos ≤ a.cur.bytes.length ∨ src ≠ [] := by
    by_cases hnil : src = []
    · have hle := hsrc hnil
      rw [hc.tell_eq a rfl, hc.tell_eq a rfl] at hle
      exact .inl hle
    · exact .inr hnil
  refine (hcall a.cur hroom (hc.prepare_writing hready)).imp ?_
  rintro s' ⟨c', hs', -, hstays⟩
  exact h.stays hstays hs'

end Sim

/-! ### Runs -/

instance (s : Obfilebuf) : Decidable (Ready s) :=
  decidable_of_iff (s.dirty = false → s.lastTouched = s.ppos → s.dev.fd.all (·.offset = s.ppos))
    (by simp [Ready, Option.all_eq_true])

/-- What a call needs to act on the right place in the file: a write that starts finds the
descriptor where the buffer believes it to be, and nothing is written behind the end only if it is
something. -/
def Sound (s : Obfilebuf) : FileOp → Prop
  | .open_ _ mode => mode ≠ .append
  | .put _ => Ready s
  | .putn src => Ready s ∧ (src = [] → (s.tell .current).1 ≤ (s.tell .end_).1)
  | .filln _ n => Ready s ∧ (n = 0 → (s.tell .current).1 ≤ (s.tell .end_).1)
  | _ => True

instance (s : Obfilebuf) (op : FileOp) : Decidable (Sound s op) := by
  cases op <;> unfold Sound <;> infer_instance

def SoundRun (s : Obfilebuf) : List FileOp → Prop
  | [] => True
  | op :: ops =>
    Sound s op ∧
    match step s op with
    | .ok s' => SoundRun s' ops
    | .error _ => True

instance SoundRun.decide (s : Obfilebuf) : (ops : List FileOp) → Decidable (SoundRun s ops)
  | [] => isTrue trivial
  | op :: ops => by
    have hrest : Decidable (match step s op with
        | .ok s' => SoundRun s' ops
        | .error _ => True) :=
      match step s op with
      | .ok s' => SoundRun.decide s' ops
      | .error _ => isTrue trivial
    exact instDecidableAnd

section

variable {s : Obfilebuf} {a : FileView}

/-- Every call does to the file what the abstract call does. -/
theorem Sim.step (h : Sim s a) {op : FileOp} (hop : Sound s op) :
    Ends IsErrno (step s op) fun s' => Sim s' (a.step op) := by
  obtain ⟨c, hc⟩ := h.stands
  cases op with
  | open_ path mode => exact h.open_ path hop
  | put byte =>
    refine h.write hop ?_ fun hnil => nomatch hnil
    intro w _ hs
    exact (appends_writing s w).put hs byte
  | putn src =>
    refine h.write hop.1 ?_ hop.2
    intro w hroom hs
    exact (appends_writing s w).putn hs fun hnil => hroom.resolve_right (not_not.mpr hnil)
  | filln byte n =>
    have hnil : List.replicate n byte = [] → n = 0 := List.replicate_eq_nil_iff byte |>.mp
    refine h.write hop.1 ?_ fun hr => hop.2 (hnil hr)
    intro w hroom hs
    exact (appends_writing s w).putn hs fun hr => hroom.resolve_right (not_not.mpr hr)
  | seek where_ offset =>
    refine (hc.seekTo where_ offset a rfl).bind ?_
    rintro ⟨s', p⟩ ⟨hs', hstays⟩
    have hcur : { a with cur := (a.seek where_ offset).cur } = a.seek where_ offset := by
      simp only [FileView.seek]
      split_ifs <;> rfl
    have hsim := h.stays hstays hs'
    rw [hcur] at hsim
    exact .ok hsim
  | tell where_ =>
    obtain ⟨hs', hstays⟩ := hc.tell where_
    exact .ok (h.stays hstays hs')
  | flush => exact hc.flush.imp fun s' hs' => h.stays hs'.2.1 hs'.1
  | truncate => exact hc.truncate.imp fun s' hs' => h.stays hs'.2.1 hs'.1
  | close => exact h.close.imp fun s' hs' => hs'.1

theorem Sim.run (h : Sim s a) {ops : List FileOp} (hops : SoundRun s ops) :
    Ends IsErrno (run s ops) fun s' => Sim s' (a.run ops) := by
  induction ops generalizing s a with
  | nil => exact .ok h
  | cons op ops ih =>
    obtain ⟨hop, hrest⟩ := hops
    refine (h.step hop).bind_ok ?_
    intro s' hres h'
    rw [hres] at hrest
    exact ih h' hrest

/-- After a flush nothing waits to be written. -/
theorem clean_of_flush {s' : Obfilebuf} (h : s.flush = .ok s') : s'.dirty = false := by
  unfold Obstreambuf.flush at h
  split_ifs at h with hdirty
  · obtain ⟨s₁, -, h⟩ := Fallible.bind_eq_ok.mp h
    obtain rfl := Except.ok.inj h
    rfl
  · obtain rfl := Except.ok.inj h
    simpa using hdirty

theorem clean_of_close {s' : Obfilebuf} (h : close s = .ok s') : s'.dirty = false := by
  unfold Obfilebuf.close at h
  obtain ⟨s₁, hflush, h⟩ := Fallible.bind_eq_ok.mp h
  obtain ⟨f, -, h⟩ := Fallible.bind_eq_ok.mp h
  obtain rfl := Except.ok.inj h
  have hclean := clean_of_flush hflush
  exact hclean

/-- The call writes out what is in the window. -/
def FileOp.Settles (op : FileOp) : Prop := op = .flush ∨ op = .close

theorem clean_of_run {ops : List FileOp} {s' : Obfilebuf} (h : run s ops = .ok s')
    (hlast : ∃ op ∈ ops.getLast?, op.Settles) : s'.dirty = false := by
  induction ops generalizing s with
  | nil =>
    obtain ⟨op, hop, -⟩ := hlast
    cases hop
  | cons op ops ih =>
    obtain ⟨s₁, hstep, h⟩ := Fallible.bind_eq_ok.mp h
    obtain _ | ⟨op', ops⟩ := ops
    · obtain ⟨_, hop, hsettles⟩ := hlast
      rw [List.getLast?_singleton, Option.mem_some_iff] at hop
      subst hop
      obtain rfl := Except.ok.inj h
      rcases hsettles with rfl | rfl
      · exact clean_of_flush hstep
      · exact clean_of_close hstep
    · exact ih h (by rwa [List.getLast?_cons_cons] at hlast)

end

/-- What a new buffer over a disk stands for. -/
def FileView.start (world : World String) : FileView := ⟨world.disk, none, ⟨[], 0⟩⟩

theorem sim_create (world : World String) (mode : OpenMode) {size : Nat} (hsize : 0 < size) :
    Sim (create world mode size) (.start world) := by
  refine ⟨⟨[], ?_⟩, rfl, rfl, rfl, fun _ _ => rfl⟩
  exact {
    view := rfl
    next := fun _ => rfl
    low := le_rfl
    high := le_rfl
    extent := fun hd => nomatch hd
    settled := fun hd => nomatch hd
    file := fun f hf => nomatch hf
    window := rfl
    room := Nat.zero_le _
    size_pos := hsize
    writable := rfl }

/-- As long as the descriptor is where the buffer believes it to be whenever a write starts, the
buffer and the disk under it are the abstract file. -/
theorem file_refined (world : World String) (mode : OpenMode) {size : Nat} (hsize : 0 < size)
    (ops : List FileOp) (hsound : SoundRun (create world mode size) ops)
    (hcalls : ∀ x, run (create world mode size) ops ≠ .error (.errno x)) :
    ∃ s, run (create world mode size) ops = .ok s ∧
      (∀ where_, (s.tell where_).1 = ((FileView.start world).run ops).tell where_) ∧
      ((∃ op ∈ ops.getLast?, op.Settles) →
        ∀ path, s.dev.world.disk.content path =
          ((FileView.start world).run ops).files.content path) := by
  obtain ⟨s, hs, hsim⟩ :=
    ((sim_create world mode hsize).run hsound).returns fun e ⟨x, hx⟩ => hx ▸ hcalls x
  obtain ⟨c, hc⟩ := hsim.stands
  refine ⟨s, hs, hc.tell_eq _ rfl, ?_⟩
  intro hlast path
  rw [hsim.synced (clean_of_run hs hlast)]

/-- A disk without files. -/
def noFiles : World String := ⟨⟨fun _ => none, fun _ => [], 0⟩, []⟩

/-- Two blocks, a hole, and a part that is written over. -/
def holedRun : List FileOp :=
  [.open_ "f" .truncate, .putn [1, 2, 3, 4, 5], .seek .end_ 2, .put 9, .seek .begin 1, .filln 7 2,
    .close]

theorem holedRun_refined : ∃ s, run (create noFiles .truncate 4) holedRun = .ok s ∧
    s.dev.world.disk.content "f" = some [1, 7, 7, 4, 5, 0, 0, 9] := by
  have hsome : (run (create noFiles .truncate 4) holedRun).isOk = true := by decide +kernel
  obtain ⟨s, hs, -, hfile⟩ := file_refined noFiles .truncate (by decide : 0 < 4) holedRun
    (by decide +kernel) (by
      intro x hx
      rw [hx] at hsome
      cases hsome)
  refine ⟨s, hs, ?_⟩
  rw [hfile ⟨.close, rfl, .inr rfl⟩ "f"]
  decide +kernel

/-- After `truncate` the next block goes to where the one before ended. -/
def cutRun : List FileOp :=
  [.open_ "f" .truncate, .putn [1, 2, 3, 4], .flush, .seek .begin 1, .truncate, .put 9, .flush]

theorem cutRun_misplaced : ∃ s, run (create noFiles .truncate 64) cutRun = .ok s ∧
    s.dev.world.disk.content "f" = some [1, 0, 0, 0, 9] ∧
    ((FileView.start noFiles).run cutRun).files.content "f" = some [1, 9] := by
  have hrun : (run (create noFiles .truncate 64) cutRun).map
      (fun s => s.dev.world.disk.content "f") = .ok (some [1, 0, 0, 0, 9]) := by decide +kernel
  rcases hs : run (create noFiles .truncate 64) cutRun with e | s
  · rw [hs] at hrun
    cases hrun
  · rw [hs] at hrun
    exact ⟨s, rfl, Except.ok.inj hrun, by decide +kernel⟩

end Nodeoze.Bstream.Obfilebuf
