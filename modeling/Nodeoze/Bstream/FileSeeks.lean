import Nodeoze.Bstream.ReadFailures

/-!
# Seeking in a file that is read

`ibfilebuf::really_seek` leaves it to `lseek` where to go, and `lseek` starts from the descriptor's
offset, which is behind what is unread in the window.  So a seek from the current position is right
only with nothing unread.  The window has to have a size, too, for there to be a next byte.
-/

namespace Nodeoze.Bstream

open Posix Partway

/-- Where a seek of an open file has to land, and what it reports otherwise. -/
def Cursor.Lands (c : Cursor) (isOpen : Bool) (r : ReadReport) : SourceOp → Prop
  | .seek where_ offset =>
    let p := c.tell where_ + offset
    if isOpen then
      if p < 0 ∨ maxOffset < p then r.error = some .invalidArgument
      else r.error = none ∧ r.position = some p ∧ r.tell = p
    else r.error = some (.errno .badf)
  | _ => True

instance (c : Cursor) (isOpen : Bool) (r : ReadReport) : (op : SourceOp) → Decidable (c.Lands isOpen r op)
  | .seek where_ offset => inferInstanceAs (Decidable (if isOpen then
      if c.tell where_ + offset < 0 ∨ maxOffset < c.tell where_ + offset then
        r.error = some .invalidArgument
      else r.error = none ∧ r.position = some (c.tell where_ + offset) ∧
        r.tell = c.tell where_ + offset
    else r.error = some (.errno .badf)))
  | .open_ _ | .close | .get | .peek | .getn _ | .getnThrowing _ => instDecidableTrue

/-- Every seek lands where it has to, and every call tells what the file has there; nothing is missed
before the end. -/
def Cursor.LandsRun (disk : Disk String) : Cursor → Bool → List (SourceOp × ReadReport) → Prop
  | _, _, [] => True
  | c, isOpen, (op, r) :: rest =>
    r.Honest op ∧ c.Lands isOpen r op ∧
      ∃ c', c.Genuine disk (fun c => c.bytes.length ≤ c.pos) op r c' ∧
        LandsRun disk c' (op.opens isOpen r) rest

namespace FlakySource

/-- What is read goes through a window that has a size and is not stale, and a seek from the current
position has nothing unread; what is in a stale window does not count. -/
def Level (s : FlakyIn) : SourceOp → Prop
  | .get | .peek | .getn _ | .getnThrowing _ => 0 < s.dev.size ∧ ¬Stale s
  | .seek .current _ => s.gnext = s.gend ∨ Stale s
  | _ => True

instance (s : FlakyIn) (op : SourceOp) : Decidable (Level s op) := by
  rcases op with _ | _ | _ | _ | ⟨_ | _ | _, _⟩ | _ | _ <;> unfold Level <;> infer_instance

def LevelRun (s : FlakyIn) : List SourceOp → Prop
  | [] => True
  | op :: ops => Level s op ∧ LevelRun (step s op).2 ops

instance LevelRun.decide (s : FlakyIn) : (ops : List SourceOp) → Decidable (LevelRun s ops)
  | [] => isTrue trivial
  | op :: ops => by
    have hrest : Decidable (LevelRun (step s op).2 ops) := LevelRun.decide _ ops
    exact instDecidableAnd

section

variable {world : World String} {size : Nat} {isOpen : Bool} {s : FlakyIn} {c : Cursor}

theorem Level.reads {op : SourceOp} (h : Level s op) (hop : op.Reads) : 0 < s.dev.size ∧ ¬Stale s := by
  cases op with
  | get => exact h
  | peek => exact h
  | getn n => exact h
  | getnThrowing n => exact h
  | seek where_ offset => exact hop.elim
  | open_ filename => exact hop.elim
  | close => exact hop.elim

/-- `lseek` goes where it has to. -/
theorem Tracks.destination (h : Tracks world size isOpen s c) {f : OpenFile} (hfd : s.dev.fd = some f)
    {where_ : SeekAnchor} {offset : Int} (hop : Level s (.seek where_ offset)) :
    destination s f where_ offset = c.tell where_ + offset := by
  obtain ⟨hbytes, hoffset⟩ := h.file f hfd
  cases where_ with
  | current =>
    have hpos : (f.offset : Int) = c.pos := by
      rw [hoffset]
      split_ifs with hstale
      · exact Int.add_zero _
      · have heq : s.gnext = s.gend := hop.resolve_right hstale
        rw [heq, Int.sub_self, Int.add_zero]
    show (f.offset : Int) + offset = c.pos + offset
    rw [hpos]
  | end_ =>
    show ((s.dev.world.disk.inode f.inode).length : Int) + offset = c.bytes.length + offset
    rw [h.world_eq, hbytes]
  | begin => exact (Int.zero_add offset).symm

theorem Tracks.lands (h : Tracks world size isOpen s c) {op : SourceOp} (hop : Level s op) :
    c.Lands isOpen (FlakySource.step s op).1 op := by
  cases op with
  | seek where_ offset =>
    rcases hfd : s.dev.fd with _ | f
    · have hclosed : isOpen = false := by rw [← h.open_eq, hfd, Option.isSome_none]
      rw [step_error (seek_closed hfd where_ offset), hclosed]
      rfl
    · have hopen : isOpen = true := by rw [← h.open_eq, hfd, Option.isSome_some]
      have hwhere := h.destination hfd hop
      subst hopen
      show if c.tell where_ + offset < 0 ∨ (maxOffset : Int) < c.tell where_ + offset then _ else _
      rw [← hwhere]
      by_cases hout : FlakySource.destination s f where_ offset < 0 ∨
          maxOffset < FlakySource.destination s f where_ offset
      · rw [if_pos hout, step_error (seek_invalid hfd hout)]
      · obtain ⟨p, hp⟩ :=
          Int.eq_ofNat_of_zero_le (a := FlakySource.destination s f where_ offset) (by omega)
        rw [if_neg hout, step_ok (seek_lands hfd hp (by omega)), hp]
        exact ⟨rfl, rfl, Int.add_zero _⟩
  | get => trivial
  | peek => trivial
  | getn n => trivial
  | getnThrowing n => trivial
  | open_ filename => trivial
  | close => trivial

end

end FlakySource

/-- What is known about the end of the file may be weakened for calls that read. -/
theorem Cursor.Genuine.imp {disk : Disk String} {dry dry' : Cursor → Prop} {c c' : Cursor}
    {op : SourceOp} {r : ReadReport} (h : c.Genuine disk dry op r c')
    (himp : op.Reads → ∀ c, dry c → dry' c) : c.Genuine disk dry' op r c' := by
  cases h with
  | get hbytes herror hahead => exact .get hbytes herror hahead
  | peek hbytes herror hahead => exact .peek hbytes herror hahead
  | past hop hbytes herror hdry =>
    refine .past hop hbytes herror (himp ?_ c hdry)
    rcases hop with rfl | rfl
    · trivial
    · trivial
  | getn hk hbytes hlen hfull =>
    exact .getn hk hbytes hlen (hfull.imp_left fun h => ⟨h.1, h.2.imp_right (himp trivial _)⟩)
  | getnThrowing hk hbytes hlen herror hfull =>
    exact .getnThrowing hk hbytes hlen herror (hfull.imp_right (himp trivial _))
  | thrown hk hbytes hlen herror => exact .thrown hk hbytes hlen herror
  | failed hbytes herror => exact .failed hbytes herror
  | seek herror hposition htell => exact .seek herror hposition htell
  | invalid herror => exact .invalid herror
  | opened hcontent herror => exact .opened hcontent herror
  | close herror => exact .close herror

namespace FlakySource

section

variable {world : World String} {size : Nat} {isOpen : Bool} {s : FlakyIn} {c : Cursor}

theorem Tracks.landsRun (h : Tracks world size isOpen s c)
    (hfiles : ∀ i, (world.disk.inode i).length ≤ maxOffset) {ops : List SourceOp}
    (hops : LevelRun s ops) : c.LandsRun world.disk isOpen (FlakySource.run s ops) := by
  induction ops generalizing s c isOpen with
  | nil => trivial
  | cons op ops ih =>
    obtain ⟨hop, hrest⟩ := hops
    obtain ⟨hhonest, c', hgenuine, h'⟩ := h.step hfiles fun hreads => (hop.reads hreads).2
    refine ⟨hhonest, h.lands hop, c', ?_, ih h' hrest⟩
    refine hgenuine.imp fun hreads c hdry => hdry.resolve_left ?_
    have hsize := (hop.reads hreads).1
    rw [h.size_eq] at hsize
    omega

end

/-- Whatever files there are and however `read` answers: every seek lands where it has to, and the next
byte is the byte there, as long as a seek from the current position has nothing unread. -/
theorem seeks_land (world : World String) (hfiles : ∀ i, (world.disk.inode i).length ≤ maxOffset)
    (size : Nat) (answers : Nat → Answer) (ops : List SourceOp)
    (hops : LevelRun (create world size answers) ops) :
    Cursor.LandsRun world.disk ⟨[], 0⟩ false (run (create world size answers) ops) :=
  (tracks_create world size answers).landsRun hfiles hops

/-- Two files. -/
def twoFiles : World String :=
  ⟨⟨fun p => if p = "f" then some 0 else if p = "g" then some 1 else none,
    fun i => if i = 0 then [1, 2, 3, 4, 5, 6] else [7, 8, 9], 2⟩, []⟩

/-- Seeks after whole blocks and behind the end, and another file. -/
def levelRun : List SourceOp :=
  [.open_ "f", .getn 4, .seek .current 1, .get, .seek .end_ (-2), .get, .seek .begin 9, .get,
    .seek .current (-9), .peek, .close, .seek .begin 0, .open_ "g", .seek .current 2, .get, .open_ "f",
    .seek .current (-1), .get]

theorem seeks_land_levelRun :
    (run (create twoFiles 2 fun _ => .whole) levelRun).map (fun x => (x.2.bytes, x.2.position)) =
      [([], none), ([1, 2, 3, 4], none), ([], some 5), ([6], none), ([], some 4), ([5], none),
        ([], some 9), ([], none), ([], some 0), ([1], none), ([], none), ([], none), ([], none),
        ([], some 2), ([9], none), ([], none), ([], none), ([1], none)] ∧
    Cursor.LandsRun twoFiles.disk ⟨[], 0⟩ false (run (create twoFiles 2 fun _ => .whole) levelRun) := by
  refine ⟨by decide +kernel, ?_⟩
  refine seeks_land twoFiles ?_ 2 (fun _ => .whole) levelRun (by decide +kernel)
  intro i
  show (if i = 0 then [1, 2, 3, 4, 5, 6] else [7, 8, 9] : List UInt8).length ≤ maxOffset
  split_ifs
  · decide
  · decide

/-- With a byte read out of a block, a seek from the current position starts at the end of the block. -/
theorem seek_from_block :
    (run (create twoFiles 4 fun _ => .whole) [.open_ "f", .get, .seek .current 0, .get]).map
        (fun x => (x.2.bytes, x.2.position)) =
      [([], none), ([1], none), ([], some 4), ([5], none)] ∧
    ¬Cursor.LandsRun twoFiles.disk ⟨[], 0⟩ false
      (run (create twoFiles 4 fun _ => .whole) [.open_ "f", .get, .seek .current 0, .get]) := by
  have hrun : run (create twoFiles 4 fun _ => .whole) [.open_ "f", .get, .seek .current 0, .get] =
      [(.open_ "f", ⟨[], none, none, [], 0⟩), (.get, ⟨[1], none, none, [none], 1⟩),
        (.seek .current 0, ⟨[], some 4, none, [], 4⟩), (.get, ⟨[5], none, none, [none], 5⟩)] := by
    decide +kernel
  rw [hrun]
  refine ⟨by decide, ?_⟩
  rintro ⟨-, -, c₁, h₁, -, -, c₂, h₂, -, hlands, -⟩
  have hfile : twoFiles.disk.content "f" = some [1, 2, 3, 4, 5, 6] := by decide +kernel
  have hc₁ : c₁ = ⟨[1, 2, 3, 4, 5, 6], 0⟩ := by
    cases h₁ with
    | past hop => simp at hop
    | failed _ herror => cases herror
    | opened hcontent _ =>
      rw [hfile] at hcontent
      rw [Option.some.inj hcontent]
  have hc₂ : c₂ = ⟨[1, 2, 3, 4, 5, 6], 1⟩ := by
    rw [hc₁] at h₂
    cases h₂ with
    | get => rfl
    | past _ hbytes => cases hbytes
    | failed hbytes => cases hbytes
  rw [hc₂] at hlands
  revert hlands
  decide

end FlakySource

end Nodeoze.Bstream
