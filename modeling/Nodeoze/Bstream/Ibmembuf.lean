import Nodeoze.Bstream.Ibstreambuf
import Nodeoze.Buffer.Spec

/-!
# The input buffer of a memory buffer

`ibmembuf` has a handle on a buffer and reads through pointers into it.  Apart from the functions of
the base class there is `get_slice`, which returns a slice of the buffer instead of a copy; it moves
`gnext` by what was asked for, also when less is there.

The calls are compared with those of a `Cursor`, and they agree for exactly the runs in which every
slice fits or nothing is left.
-/

namespace Nodeoze.Bstream

open RefHeap Buffer

/-- The heap, the slot of `m_buf`, and the address that was its `data()`. -/
structure MemSource where
  heap : Heap
  slot : Nat
  base : Option Ptr

abbrev Ibmembuf := Ibstreambuf MemSource

namespace Ibmembuf

/-- `really_underflow` is that of the base class. -/
instance : Source MemSource where
  load dev off n := if off < 0 then none else dev.heap.read (dev.base.map (·.add off.toNat)) n
  reallyUnderflow s := pure (0, s)

/-- `set_ptrs` in the constructors, with `m_buf` in slot `i`. -/
def create (H : Heap) (i : Nat) : Option Ibmembuf := do
  let h ← H.bufs i
  pure ⟨0, 0, h.size, ⟨H, i, h.data⟩⟩

def setHeap (s : Ibmembuf) (H : Heap) : Ibmembuf := { s with dev := { s.dev with heap := H } }

/-- `get_slice( n )`, and `getn( n )` where it returns a buffer: the slot of the result. -/
def getSlice (s : Ibmembuf) (n : UInt64) : Except Failure (Nat × Ibmembuf) :=
  let sliceSize := min s.available n.toNat
  if sliceSize < 1 then
    pure (s.dev.heap.slots, setHeap s (construct s.dev.heap [] .copyOnWrite))
  else
    let pos := s.gpos
    -- `gbump` takes an `offset_type`, which is signed, and `slice` a `size_type`
    let s := s.gbump ((n.toNat : Int).bmod (2 ^ 64))
    match slice s.dev.heap s.dev.slot (pos % 2 ^ 64).toNat n.toNat false with
    | some H => pure (s.dev.heap.slots, setHeap s H)
    | none => throw .undefined

end Ibmembuf

inductive MemOp
  | get
  | peek
  | getn (n : UInt64)
  | getSlice (n : UInt64)
  | seek (where_ : SeekAnchor) (offset : Int64)
  | tell (where_ : SeekAnchor)
  deriving DecidableEq, Repr

/-- The reply to a call that returns a byte. -/
def Reply.ofByte : Except ReadError UInt8 → Reply
  | .ok b => .byte b
  | .error e => .failed e

/-- The reply to a seek. -/
def Reply.ofSeek : Option Int → Reply
  | some p => .position p
  | none => .failed .invalidSeek

def Ibmembuf.step (s : Ibmembuf) : MemOp → Except Failure (Reply × Ibmembuf)
  | .get => do
    let (r, s) ← s.get
    pure (.ofByte r, s)
  | .peek => do
    let (r, s) ← s.peek
    pure (.ofByte r, s)
  | .getn n => do
    let (bs, s) ← s.getn n.toNat
    pure (.bytes bs, s)
  | .getSlice n => do
    let (i, s) ← getSlice s n
    match s.dev.heap.content i with
    | some bs => pure (.bytes bs, s)
    | none => throw .undefined
  | .seek where_ offset =>
    let (r, s) := s.seek where_ offset.toInt
    pure (.ofSeek r, s)
  | .tell where_ => pure (.position (s.tell where_), s)

def Cursor.step (c : Cursor) : MemOp → Reply × Cursor
  | .get => (.ofByte c.ahead, c.advance 1)
  | .peek => (.ofByte c.ahead, c)
  | .getn n => (.bytes (c.range n.toNat), c.advance n.toNat)
  | .getSlice n => (.bytes (c.range n.toNat), c.advance n.toNat)
  | .seek where_ offset =>
    let (r, c) := c.seek where_ offset.toInt
    (.ofSeek r, c)
  | .tell where_ => (.position (c.tell where_), c)

namespace Ibmembuf

/-- The pointers are in the window, and the position is that of the cursor. -/
def InBounds (s : Ibmembuf) (c : Cursor) : Prop := 0 ≤ s.gnext ∧ s.gnext ≤ s.gend ∧ s.gpos = c.pos

/-- Every call of the run returns what the cursor returns, and ends with the pointers in bounds. -/
def Faithful (s : Ibmembuf) (c : Cursor) : List MemOp → Prop
  | [] => InBounds s c
  | op :: ops =>
    InBounds s c ∧ ∃ s', step s op = .ok ((c.step op).1, s') ∧ Faithful s' (c.step op).2 ops

/-- A slice is asked for only if it is there, or nothing is. -/
def Fits (c : Cursor) : MemOp → Prop
  | .getSlice n => n.toNat ≤ c.bytes.length - c.pos ∨ c.pos = c.bytes.length
  | _ => True

instance (c : Cursor) (op : MemOp) : Decidable (Fits c op) := by
  cases op <;> unfold Fits <;> infer_instance

def FitsAll (c : Cursor) : List MemOp → Prop
  | [] => True
  | op :: ops => Fits c op ∧ FitsAll (c.step op).2 ops

instance FitsAll.decide (c : Cursor) : (ops : List MemOp) → Decidable (FitsAll c ops)
  | [] => isTrue trivial
  | op :: ops =>
    have := FitsAll.decide (c.step op).2 ops
    inferInstanceAs (Decidable (Fits c op ∧ FitsAll (c.step op).2 ops))

/-- The buffer reads `c.bytes`, through pointers that are good, and is at the cursor. -/
structure Over (s : Ibmembuf) (c : Cursor) : Prop where
  owned : ∃ h B, Owned s.dev.heap s.dev.slot h B c.bytes ∧ s.dev.base = h.data
  base : s.gbaseOffset = 0
  next : s.gnext = c.pos
  end_ : s.gend = c.bytes.length
  pos_le : c.pos ≤ c.bytes.length
  small : c.bytes.length < 2 ^ 63

section

variable {s : Ibmembuf} {c : Cursor}

theorem Over.inBounds (h : Over s c) : InBounds s c := by
  have h1 := h.base
  have h2 := h.next
  have h3 := h.end_
  have h4 := h.pos_le
  unfold InBounds Ibstreambuf.gpos
  omega

theorem delivers_over : Ibstreambuf.Delivers Over where
  inside := by
    intro s c h
    have h2 := h.next
    have h3 := h.end_
    have h4 := h.pos_le
    have h5 := h.small
    omega
  ahead := by
    intro s c n h hn
    obtain ⟨k, B, o, hbase⟩ := h.owned
    have h2 := h.next
    have h3 := h.end_
    have hfit : c.pos + n ≤ c.bytes.length := by omega
    have hneg : ¬s.gnext < 0 := by omega
    have hoff : s.gnext.toNat = c.pos := by omega
    have hread : s.dev.heap.read (k.at c.pos) n = some (c.range n) := o.read_at (by rw [← o.length]; exact hfit)
    refine ⟨?_, hfit⟩
    show (if s.gnext < 0 then none else s.dev.heap.read (s.dev.base.map _) n) = _
    rw [if_neg hneg, hoff, hbase]
    exact hread
  bump := by
    intro s c n h hn
    have h2 := h.next
    have h3 := h.end_
    exact {
      owned := h.owned
      base := h.base
      next := by
        show s.gnext + n = ((c.pos + n : Nat) : Int)
        omega
      end_ := h.end_
      pos_le := by
        show c.pos + n ≤ c.bytes.length
        omega
      small := h.small }
  underflow := by
    intro s c h hfull
    have h2 := h.next
    have h3 := h.end_
    have hzero : s.available = 0 := by
      unfold Ibstreambuf.available
      rw [hfull]
      omega
    refine ⟨s, ?_, h, fun _ => by omega⟩
    rw [hzero]
    rfl

/-- What a slice is, and where it leaves the buffer. -/
theorem Over.getSlice (h : Over s c) (n : UInt64) :
    ∃ i s', getSlice s n = .ok (i, s') ∧ s'.dev.heap.content i = some (c.range n.toNat) ∧
      (∃ k B, Owned s'.dev.heap s'.dev.slot k B c.bytes ∧ s'.dev.base = k.data) ∧
      s'.gbaseOffset = 0 ∧ s'.gend = s.gend ∧
      s'.gnext = if c.pos = c.bytes.length ∨ n.toNat = 0 then s.gnext
        else s.gnext + (n.toNat : Int).bmod (2 ^ 64) := by
  obtain ⟨k, B, o, hbase⟩ := h.owned
  have havail := delivers_over.available_eq h
  have h1 := h.base
  have h2 := h.next
  have h3 := h.end_
  have h4 := h.pos_le
  have h5 := h.small
  unfold Ibmembuf.getSlice
  by_cases hnone : min s.available n.toNat < 1
  · have hnothing : c.pos = c.bytes.length ∨ n.toNat = 0 := by omega
    obtain ⟨k', B', o', -⟩ := owned_construct o.wf [] .copyOnWrite
    refine ⟨_, _, if_pos hnone, ?_, ⟨k, B, o.construct [] .copyOnWrite, hbase⟩, h1, rfl, ?_⟩
    · have hrange : c.range n.toNat = [] := by
        unfold Cursor.range
        rcases hnothing with hend | hzero
        · rw [hend, List.drop_length, List.take_nil]
        · rw [hzero, List.take_zero]
      rw [hrange]
      exact o'.content
    · rw [if_pos hnothing]
      rfl
  · have hsome : ¬(c.pos = c.bytes.length ∨ n.toNat = 0) := by omega
    have hoffset : (s.gpos % 2 ^ 64).toNat = c.pos := by
      unfold Ibstreambuf.gpos
      omega
    obtain ⟨H', B', hslice, o', hcontent, -⟩ := o.slice c.pos n.toNat false
    refine ⟨s.dev.heap.slots, setHeap (s.gbump ((n.toNat : Int).bmod (2 ^ 64))) H', ?_, hcontent,
      ⟨k, B', o', hbase⟩, h1, rfl, ?_⟩
    · rw [if_neg hnone]
      show (match slice s.dev.heap s.dev.slot (s.gpos % 2 ^ 64).toNat n.toNat false with
        | some H => pure (s.dev.heap.slots, setHeap (s.gbump ((n.toNat : Int).bmod (2 ^ 64))) H)
        | none => throw Failure.undefined) = _
      rw [hoffset, hslice]
      rfl
    · rw [if_neg hsome]
      rfl

theorem Over.seek (h : Over s c) (where_ : SeekAnchor) (offset : Int) :
    ∃ s', s.seek where_ offset = ((c.seek where_ offset).1, s') ∧ Over s' (c.seek where_ offset).2 := by
  have h1 := h.base
  have h2 := h.next
  have h3 := h.end_
  have htarget : s.target where_ offset = c.tell where_ + offset := by
    cases where_ with
    | current =>
      show s.gbaseOffset + s.gnext + offset = c.pos + offset
      omega
    | end_ =>
      show s.gend + offset = c.bytes.length + offset
      omega
    | begin =>
      show offset = 0 + offset
      omega
  simp only [Ibstreambuf.seek, Cursor.seek, htarget, h3]
  by_cases hbad : c.tell where_ + offset < 0 ∨ c.tell where_ + offset > c.bytes.length
  · simp only [if_pos hbad]
    exact ⟨s, rfl, h⟩
  · simp only [if_neg hbad]
    refine ⟨_, rfl, ?_⟩
    exact { h with
      next := by
        show c.tell where_ + offset = ((c.tell where_ + offset).toNat : Int)
        omega
      end_ := rfl
      pos_le := by
        show (c.tell where_ + offset).toNat ≤ c.bytes.length
        omega }

theorem Over.tell (h : Over s c) (where_ : SeekAnchor) : s.tell where_ = c.tell where_ := by
  have h1 := h.base
  have h2 := h.next
  have h3 := h.end_
  cases where_ with
  | current =>
    show s.gbaseOffset + s.gnext = c.pos
    omega
  | end_ => exact h3
  | begin => rfl

/-- One call, whose slice fits. -/
theorem Over.step (h : Over s c) {op : MemOp} (hfits : Fits c op) :
    ∃ s', step s op = .ok ((c.step op).1, s') ∧ Over s' (c.step op).2 := by
  cases op with
  | get =>
    obtain ⟨s', hs', h'⟩ := delivers_over.get h
    refine ⟨s', ?_, h'⟩
    rw [Ibmembuf.step, hs']
    rfl
  | peek =>
    obtain ⟨s', hs', h'⟩ := delivers_over.peek h
    refine ⟨s', ?_, h'⟩
    rw [Ibmembuf.step, hs']
    rfl
  | getn n =>
    obtain ⟨s', hs', h'⟩ := delivers_over.getn h n.toNat
    refine ⟨s', ?_, h'⟩
    rw [Ibmembuf.step, hs']
    rfl
  | getSlice n =>
    obtain ⟨i, s', hs', hcontent, howned, hbase, hend, hnext⟩ := h.getSlice n
    refine ⟨s', ?_, ?_⟩
    · rw [Ibmembuf.step, hs', ok_bind]
      show (match s'.dev.heap.content i with
        | some bs => pure (Reply.bytes bs, s')
        | none => throw Failure.undefined) = _
      rw [hcontent]
      rfl
    · have h2 := h.next
      have h3 := h.end_
      have h4 := h.pos_le
      have h5 := h.small
      have hn : n.toNat ≤ c.bytes.length - c.pos ∨ c.pos = c.bytes.length := hfits
      exact {
        owned := howned
        base := hbase
        next := by
          show s'.gnext = ((min (c.pos + n.toNat) c.bytes.length : Nat) : Int)
          rw [hnext]
          split_ifs with hnothing
          · omega
          · rw [Int.bmod_def]
            omega
        end_ := hend.trans h3
        pos_le := min_le_right _ _
        small := h5 }
  | seek where_ offset =>
    obtain ⟨s', hs', h'⟩ := h.seek where_ offset.toInt
    refine ⟨s', ?_, h'⟩
    rw [Ibmembuf.step, hs']
    rfl
  | tell where_ =>
    refine ⟨s, ?_, h⟩
    rw [Ibmembuf.step, h.tell]
    rfl

/-- A slice that does not fit moves the buffer to where the cursor is not. -/
theorem Over.fits_of_inBounds (h : Over s c) {op : MemOp} {s' : Ibmembuf}
    (hstep : Ibmembuf.step s op = .ok ((c.step op).1, s')) (hs' : InBounds s' (c.step op).2) :
    Fits c op := by
  cases op with
  | get | peek | getn _ | seek _ _ | tell _ => trivial
  | getSlice n =>
    obtain ⟨i, s₁, hs₁, hcontent, -, hbase, -, hnext⟩ := h.getSlice n
    have heq : s₁ = s' := by
      rw [Ibmembuf.step, hs₁, ok_bind] at hstep
      have hstep' : (match s₁.dev.heap.content i with
        | some bs => pure (Reply.bytes bs, s₁)
        | none => throw Failure.undefined) = Except.ok ((c.step (.getSlice n)).1, s') := hstep
      rw [hcontent] at hstep'
      exact (Prod.mk.inj (Except.ok.inj hstep')).2
    obtain ⟨-, -, hpos⟩ := hs'
    have h2 := h.next
    have h4 := h.pos_le
    have h5 := h.small
    have hlt := n.toNat_lt
    have hadvance : s'.gpos = ((min (c.pos + n.toNat) c.bytes.length : Nat) : Int) := hpos
    rw [← heq, Ibstreambuf.gpos, hbase, hnext] at hadvance
    show n.toNat ≤ c.bytes.length - c.pos ∨ c.pos = c.bytes.length
    by_contra hover
    have hsome : ¬(c.pos = c.bytes.length ∨ n.toNat = 0) := by omega
    rw [if_neg hsome, Int.bmod_def] at hadvance
    omega

theorem Over.faithful_iff (h : Over s c) (ops : List MemOp) : Faithful s c ops ↔ FitsAll c ops := by
  induction ops generalizing s c with
  | nil => exact ⟨fun _ => trivial, fun _ => h.inBounds⟩
  | cons op ops ih =>
    constructor
    · rintro ⟨-, s', hs', hrest⟩
      have hin : InBounds s' (c.step op).2 := by
        cases ops with
        | nil => exact hrest
        | cons op' ops => exact hrest.1
      have hfits := h.fits_of_inBounds hs' hin
      obtain ⟨s₁, hs₁, h₁⟩ := h.step hfits
      obtain rfl := (Prod.mk.inj (Except.ok.inj (hs₁.symm.trans hs'))).2
      exact ⟨hfits, (ih h₁).mp hrest⟩
    · rintro ⟨hfits, hrest⟩
      obtain ⟨s', hs', h'⟩ := h.step hfits
      exact ⟨h.inBounds, s', hs', (ih h').mpr hrest⟩

end

/-- An `ibmembuf` over `b` reads like a cursor over `b` in exactly the runs that ask for no slice
longer than what is left of `b`, unless nothing is. -/
theorem reader_faithful_iff {H : Heap} {i : Nat} {h : Handle} {B : Block UInt8 Policy}
    {b : List UInt8} (o : Owned H i h B b) (hb : b.length < 2 ^ 63) (ops : List MemOp) :
    (∃ s, create H i = some s ∧ Faithful s ⟨b, 0⟩ ops) ↔ FitsAll ⟨b, 0⟩ ops := by
  have hcreate : create H i = some ⟨0, 0, h.size, ⟨H, i, h.data⟩⟩ := by
    rw [create, o.buf]
    rfl
  have hover : Over (⟨0, 0, h.size, ⟨H, i, h.data⟩⟩ : Ibmembuf) ⟨b, 0⟩ := {
    owned := ⟨h, B, o, rfl⟩
    base := rfl
    next := rfl
    end_ := by rw [o.length]
    pos_le := Nat.zero_le _
    small := hb }
  constructor
  · rintro ⟨s, hs, hfaithful⟩
    obtain rfl := Option.some.inj (hcreate.symm.trans hs)
    exact (hover.faithful_iff ops).mp hfaithful
  · intro hfits
    exact ⟨_, hcreate, (hover.faithful_iff ops).mpr hfits⟩

/-- A heap with one buffer. -/
def threeBytes : Heap := construct RefHeap.empty [1, 2, 3] .copyOnWrite

/-- Slices up to the end and beyond it, and a short copy. -/
def fittingRun : List MemOp :=
  [.getSlice 2, .getSlice 1, .getSlice 5, .get, .seek .begin 1, .getn 7, .tell .current]

theorem fittingRun_faithful : ∃ s, create threeBytes 0 = some s ∧ Faithful s ⟨[1, 2, 3], 0⟩ fittingRun := by
  have wf : (RefHeap.empty : Heap).WF guarded := WF.empty
  obtain ⟨h, B, o, -⟩ := owned_construct wf [1, 2, 3] .copyOnWrite
  exact (reader_faithful_iff o (by decide) fittingRun).mpr (by decide)

/-- A slice of five of three bytes: the bytes are right, the position is not, and the next copy
reads what is behind the buffer. -/
theorem longSlice_leaves : ∃ s s', create threeBytes 0 = some s ∧
    step s (.getSlice 5) = .ok (.bytes [1, 2, 3], s') ∧ s'.gnext = 5 ∧ s'.gend = 3 ∧
    step s' (.getn 1) = .error .undefined ∧ ¬Faithful s ⟨[1, 2, 3], 0⟩ [.getSlice 5] := by
  have hrun : ((create threeBytes 0).map fun s => (step s (.getSlice 5)).map fun r =>
      (r.1, r.2.gnext, r.2.gend, (step r.2 (.getn 1)).map Prod.fst)) =
      some (.ok (.bytes [1, 2, 3], 5, 3, .error .undefined)) := by decide +kernel
  obtain ⟨s, hs, hstep⟩ := Option.map_eq_some_iff.mp hrun
  rcases hres : step s (.getSlice 5) with e | ⟨r, s'⟩
  · rw [hres] at hstep
    cases hstep
  · rw [hres] at hstep
    obtain ⟨hr, hnext, hend, hgetn⟩ : r = .bytes [1, 2, 3] ∧ s'.gnext = 5 ∧ s'.gend = 3 ∧
        (step s' (.getn 1)).map Prod.fst = .error .undefined := by
      simpa using Except.ok.inj hstep
    refine ⟨s, s', hs, by rw [hres, hr], hnext, hend, ?_, ?_⟩
    · rcases hcopy : step s' (.getn 1) with e | q
      · rw [hcopy] at hgetn
        exact congrArg _ (Except.error.inj hgetn)
      · rw [hcopy] at hgetn
        cases hgetn
    · rintro ⟨-, s₁, hs₁, -, hle, -⟩
      obtain rfl := (Prod.mk.inj (Except.ok.inj (hres.symm.trans hs₁))).2
      omega

end Ibmembuf

end Nodeoze.Bstream
