import Mathlib.Algebra.BigOperators.Group.Finset.Piecewise
import Mathlib.Algebra.Order.BigOperators.Group.Finset
import Mathlib.Logic.Function.Basic
import Nodeoze.Lib.Splice

/-!
# A heap of reference-counted blocks

Blocks of memory are shared between handles.  A handle sees a range of its block; a block counts
the handles on it and is freed when the last one goes.  Reallocating a block gives it a new
generation, so that pointers into the old memory dangle.

`WF` is the invariant: every handle is on a live block, and every block counts its handles.  A
block whose tag is guarded moreover promises every handle a range inside it; the other tags leave
that to the users of the block.  `Frame i H H'` says that a step changed nothing that the handles
other than `i` see.
-/

namespace RefHeap

open Splice

/-- A block of memory, the generation of its allocation, its reference count and its tag. -/
structure Block (α π : Type) where
  mem : List α
  gen : Nat
  refs : Nat
  tag : π

/-- An address: a block, the generation it was taken in, and an offset. -/
structure Ptr where
  blk : Nat
  gen : Nat
  off : Nat
  deriving DecidableEq, Repr

/-- The address `n` bytes further on. -/
def Ptr.add (p : Ptr) (n : Nat) : Ptr := { p with off := p.off + n }

/-- A handle on a block: where its range starts and how long it is. -/
structure Handle where
  blk : Nat
  data : Option Ptr
  size : Nat
  deriving DecidableEq, Repr

/-- The address of the memory of block `b`, null when it has none. -/
def Block.data {α π : Type} (B : Block α π) (b : Nat) : Option Ptr :=
  if B.mem = [] then none else some ⟨b, B.gen, 0⟩

/-- The range of the handle lies in the block. -/
def Handle.Within {α π : Type} (h : Handle) (B : Block α π) : Prop :=
  match h.data with
  | none => h.size = 0 ∧ B.mem = []
  | some p => p.blk = h.blk ∧ p.gen = B.gen ∧ p.off + h.size ≤ B.mem.length

/-- Whether the handle, if there is one, is on block `b`. -/
def on (b : Nat) : Option Handle → Nat
  | none => 0
  | some h => if h.blk = b then 1 else 0

end RefHeap

/-- The blocks by number, the handles by slot; `next` counts the allocations made so far. -/
structure RefHeap (α π : Type) where
  blks : Nat → Option (RefHeap.Block α π)
  next : Nat
  bufs : Nat → Option RefHeap.Handle
  slots : Nat

namespace RefHeap

open Splice

variable {α π : Type}

/-- The heap with nothing in it. -/
def empty : RefHeap α π := ⟨fun _ => none, 0, fun _ => none, 0⟩

/-- How many handles are on block `b`. -/
def count (H : RefHeap α π) (b : Nat) : Nat := ∑ j ∈ Finset.range H.slots, on b (H.bufs j)

/-- Read `n` bytes at an address. -/
def read (H : RefHeap α π) (p : Option Ptr) (n : Nat) : Option (List α) :=
  if n = 0 then some []
  else do
    let p ← p
    let B ← H.blks p.blk
    if p.gen = B.gen ∧ p.off + n ≤ B.mem.length then some ((B.mem.drop p.off).take n) else none

/-- What a handle shows. -/
def content (H : RefHeap α π) (i : Nat) : Option (List α) := do
  let h ← H.bufs i
  H.read h.data h.size

def setBlk (H : RefHeap α π) (b : Nat) (B : Option (Block α π)) : RefHeap α π :=
  { H with blks := Function.update H.blks b B }

def setBuf (H : RefHeap α π) (i : Nat) (h : Option Handle) : RefHeap α π :=
  { H with bufs := Function.update H.bufs i h }

/-- Overwrite memory at an address. -/
def write (H : RefHeap α π) (p : Option Ptr) (bs : List α) : Option (RefHeap α π) :=
  if bs = [] then some H
  else do
    let p ← p
    let B ← H.blks p.blk
    if p.gen = B.gen ∧ p.off + bs.length ≤ B.mem.length then
      some (H.setBlk p.blk (some { B with mem := splice B.mem p.off bs }))
    else none

/-- A new slot for a handle; it is the one numbered `H.slots`. -/
def push (H : RefHeap α π) : RefHeap α π := { H with slots := H.slots + 1 }

/-- Put a handle on a new block into slot `i`.  The handle sees all of the block. -/
def attach (H : RefHeap α π) (i : Nat) (mem : List α) (t : π) : RefHeap α π :=
  let B : Block α π := ⟨mem, 0, 1, t⟩
  { (H.setBlk H.next (some B)).setBuf i (some ⟨H.next, B.data H.next, mem.length⟩) with
    next := H.next + 1 }

/-- Give up one reference to block `b`, and the block with the last one. -/
def release (H : RefHeap α π) (b : Nat) : RefHeap α π :=
  match H.blks b with
  | none => H
  | some B =>
    if B.refs = 1 then H.setBlk b none else H.setBlk b (some { B with refs := B.refs - 1 })

/-- Empty slot `i`, giving up its reference. -/
def detach (H : RefHeap α π) (i : Nat) : RefHeap α π :=
  match H.bufs i with
  | none => H
  | some h => (H.release h.blk).setBuf i none

/-- Put handle `h`, on a block that is already there, into slot `i`. -/
def share (H : RefHeap α π) (i : Nat) (h : Handle) : RefHeap α π :=
  match H.blks h.blk with
  | none => H
  | some B => (H.setBlk h.blk (some { B with refs := B.refs + 1 })).setBuf i (some h)

/-- Reallocate block `b` with `pad` behind its memory. -/
def grow (H : RefHeap α π) (b : Nat) (pad : List α) : RefHeap α π :=
  match H.blks b with
  | none => H
  | some B =>
    { H.setBlk b (some { B with mem := B.mem ++ pad, gen := B.gen + 1 }) with next := H.next + 1 }

/-! ### Counting handles -/

section Count

variable (H : RefHeap α π)

theorem count_setBuf {i : Nat} (hi : i < H.slots) (b : Nat) (x : Option Handle) :
    (H.setBuf i x).count b + on b (H.bufs i) = H.count b + on b x := by
  have hmem : i ∈ Finset.range H.slots := Finset.mem_range.mpr hi
  have hupd : (fun j => on b (Function.update H.bufs i x j)) =
      Function.update (fun j => on b (H.bufs j)) i (on b x) := by
    funext j
    by_cases hj : j = i
    · subst hj
      simp
    · simp [hj]
  have hnew : (H.setBuf i x).count b =
      on b x + ∑ j ∈ Finset.range H.slots \ {i}, on b (H.bufs j) := by
    change ∑ j ∈ Finset.range H.slots, on b (Function.update H.bufs i x j) = _
    rw [show (∑ j ∈ Finset.range H.slots, on b (Function.update H.bufs i x j)) =
        ∑ j ∈ Finset.range H.slots, Function.update (fun j => on b (H.bufs j)) i (on b x) j from
      Finset.sum_congr rfl fun j _ => congrFun hupd j]
    exact Finset.sum_update_of_mem hmem _ _
  have hold : H.count b =
      on b (H.bufs i) + ∑ j ∈ Finset.range H.slots \ {i}, on b (H.bufs j) := by
    rw [count, ← Finset.add_sum_erase _ _ hmem, Finset.sdiff_singleton_eq_erase]
  omega

theorem count_setBlk (b c : Nat) (B : Option (Block α π)) : (H.setBlk b B).count c = H.count c := rfl

theorem on_le_count {i : Nat} (hi : i < H.slots) (b : Nat) : on b (H.bufs i) ≤ H.count b :=
  Finset.single_le_sum (f := fun j => on b (H.bufs j)) (fun _ _ => Nat.zero_le _)
    (Finset.mem_range.mpr hi)

theorem two_le_count {i j : Nat} (hij : i ≠ j) (hi : i < H.slots) (hj : j < H.slots) {b : Nat}
    {h k : Handle} (hh : H.bufs i = some h) (hk : H.bufs j = some k) (hb : h.blk = b)
    (kb : k.blk = b) : 2 ≤ H.count b := by
  have hsub : ({i, j} : Finset Nat) ⊆ Finset.range H.slots := by
    intro x hx
    rcases Finset.mem_insert.mp hx with rfl | hx
    · exact Finset.mem_range.mpr hi
    · rw [Finset.mem_singleton] at hx
      exact Finset.mem_range.mpr (hx ▸ hj)
  calc 2 = ∑ x ∈ ({i, j} : Finset Nat), on b (H.bufs x) := by
        rw [Finset.sum_pair hij, hh, hk]
        simp [on, hb, kb]
    _ ≤ H.count b := Finset.sum_le_sum_of_subset hsub

theorem count_push (hslot : H.bufs H.slots = none) (b : Nat) : H.push.count b = H.count b := by
  simp [count, push, Finset.sum_range_succ, hslot, on]

end Count

/-! ### The invariant -/

/-- Every handle is on a live block, with its range inside it if the block's tag is guarded, and
every block counts its handles. -/
structure WF (guarded : π → Prop) (H : RefHeap α π) : Prop where
  fresh : ∀ b, H.next ≤ b → H.blks b = none
  absent : ∀ i, H.slots ≤ i → H.bufs i = none
  own : ∀ i h p, H.bufs i = some h → h.data = some p → p.blk = h.blk
  live : ∀ i h, H.bufs i = some h → ∃ B, H.blks h.blk = some B ∧ (guarded B.tag → h.Within B)
  counted : ∀ b B, H.blks b = some B → B.refs = H.count b

/-- The handle in slot `i` is on block `B` and its range lies in it. -/
def Holds (H : RefHeap α π) (i : Nat) (h : Handle) (B : Block α π) : Prop :=
  H.bufs i = some h ∧ H.blks h.blk = some B ∧ h.Within B

/-- Nothing that a handle other than `i` sees has changed. -/
structure Frame (i : Nat) (H H' : RefHeap α π) : Prop where
  slots : H.slots ≤ H'.slots
  bufs : ∀ j, j ≠ i → H'.bufs j = H.bufs j
  content : ∀ j, j ≠ i → H'.content j = H.content j

theorem Frame.refl (i : Nat) (H : RefHeap α π) : Frame i H H :=
  ⟨le_rfl, fun _ _ => rfl, fun _ _ => rfl⟩

theorem Frame.trans {i : Nat} {H H' H'' : RefHeap α π} (h : Frame i H H') (h' : Frame i H' H'') :
    Frame i H H'' :=
  ⟨h.slots.trans h'.slots, fun j hj => (h'.bufs j hj).trans (h.bufs j hj),
    fun j hj => (h'.content j hj).trans (h.content j hj)⟩

section

variable {guarded : π → Prop} {H : RefHeap α π} {i : Nat} {h : Handle} {B : Block α π}

theorem WF.lt_slots (wf : H.WF guarded) (hi : H.bufs i = some h) : i < H.slots := by
  by_contra hge
  rw [wf.absent i (by omega)] at hi
  cases hi

theorem WF.lt_next (wf : H.WF guarded) {b : Nat} (hb : H.blks b = some B) : b < H.next := by
  by_contra hge
  rw [wf.fresh b (by omega)] at hb
  cases hb

theorem WF.empty : (RefHeap.empty : RefHeap α π).WF guarded :=
  { fresh := fun _ _ => rfl
    absent := fun _ _ => rfl
    own := fun _ _ _ hi => nomatch hi
    live := fun _ _ hi => nomatch hi
    counted := fun _ _ hb => nomatch hb }

/-- On a block that counts one reference, a second handle does not exist. -/
theorem WF.sole (wf : H.WF guarded) (hi : H.bufs i = some h) (hb : H.blks h.blk = some B)
    (huniq : B.refs = 1) {j : Nat} {k : Handle} (hj : j ≠ i) (hk : H.bufs j = some k) :
    k.blk ≠ h.blk := by
  intro hkb
  have h2 := H.two_le_count hj (wf.lt_slots hk) (wf.lt_slots hi) hk hi hkb rfl
  rw [← wf.counted _ _ hb] at h2
  omega

theorem WF.within (wf : H.WF guarded) {b : Nat} (hb : H.blks b = some B) (hgd : guarded B.tag)
    (hi : H.bufs i = some h) (hib : h.blk = b) : h.Within B := by
  obtain ⟨C, hC, hin⟩ := wf.live i h hi
  rw [hib, hb] at hC
  obtain rfl := Option.some.inj hC
  exact hin hgd

theorem read_within (hb : H.blks h.blk = some B) (hin : h.Within B) :
    ∃ off, H.read h.data h.size = some ((B.mem.drop off).take h.size) ∧
      (h.data = none → h.size = 0) ∧
      (∀ p, h.data = some p → p = ⟨h.blk, B.gen, off⟩ ∧ off + h.size ≤ B.mem.length) := by
  unfold Handle.Within at hin
  split at hin
  · rename_i hd
    refine ⟨0, ?_, fun _ => hin.1, fun p hp => ?_⟩
    · simp [read, hin.1]
    · rw [hd] at hp
      cases hp
  · rename_i p hd
    obtain ⟨hpb, hpg, hle⟩ := hin
    refine ⟨p.off, ?_, fun hn => ?_, fun q hq => ?_⟩
    · by_cases hz : h.size = 0
      · simp [read, hz]
      · simp [read, hz, hd, hpb, hb, hpg, hle]
    · rw [hd] at hn
      cases hn
    · rw [hd] at hq
      obtain rfl := Option.some.inj hq
      exact ⟨by rw [← hpb, ← hpg], hle⟩

/-! ### Reading after a step -/

theorem read_congr {H H' : RefHeap α π} {p : Ptr} {n : Nat}
    (hb : H'.blks p.blk = H.blks p.blk) : H'.read (some p) n = H.read (some p) n := by
  simp [read, hb]

/-- Only the memory and the generation of the block count for a read. -/
theorem read_mem_congr {H H' : RefHeap α π} {p : Ptr} {n : Nat} {B B' : Block α π}
    (hb : H.blks p.blk = some B) (hb' : H'.blks p.blk = some B') (hm : B'.mem = B.mem)
    (hg : B'.gen = B.gen) : H'.read (some p) n = H.read (some p) n := by
  simp [read, hb, hb', hm, hg]

/-- A handle that sees a range of its own block sees the same after a step that keeps the block's
memory and generation. -/
theorem content_congr {H H' : RefHeap α π} {j : Nat} (hbuf : H'.bufs j = H.bufs j)
    (hblk : ∀ k p, H.bufs j = some k → k.data = some p →
      H'.blks p.blk = H.blks p.blk ∨
        ∃ B B', H.blks p.blk = some B ∧ H'.blks p.blk = some B' ∧ B'.mem = B.mem ∧ B'.gen = B.gen) :
    H'.content j = H.content j := by
  unfold content
  rw [hbuf]
  cases hk : H.bufs j with
  | none => rfl
  | some k =>
    change H'.read k.data k.size = H.read k.data k.size
    cases hd : k.data with
    | none => simp [read]
    | some p =>
      rcases hblk k p hk hd with hsame | ⟨B, B', hB, hB', hm, hg⟩
      · exact read_congr hsame
      · exact read_mem_congr hB hB' hm hg

/-! ### Giving up a handle -/

theorem release_blks_ne {b c : Nat} (hc : c ≠ b) : (H.release b).blks c = H.blks c := by
  unfold release
  split
  · rfl
  · split <;> simp [setBlk, hc]

theorem release_bufs (b : Nat) : (H.release b).bufs = H.bufs := by
  unfold release
  split
  · rfl
  · split <;> rfl

theorem release_slots (b : Nat) : (H.release b).slots = H.slots := by
  unfold release
  split
  · rfl
  · split <;> rfl

theorem release_next (b : Nat) : (H.release b).next = H.next := by
  unfold release
  split
  · rfl
  · split <;> rfl

theorem release_blks_self {b : Nat} (hb : H.blks b = some B) :
    (H.release b).blks b = if B.refs = 1 then none else some { B with refs := B.refs - 1 } := by
  unfold release
  rw [hb]
  by_cases h1 : B.refs = 1 <;> simp [setBlk, h1]

/-- A block that another handle is on survives the release. -/
theorem WF.release_blks (wf : H.WF guarded) (hi : H.bufs i = some h) {j : Nat} {k : Handle}
    (hj : j ≠ i) (hk : H.bufs j = some k) (hB : H.blks k.blk = some B) :
    ∃ B', (H.release h.blk).blks k.blk = some B' ∧ B'.mem = B.mem ∧ B'.gen = B.gen ∧
      B'.tag = B.tag := by
  by_cases hkb : k.blk = h.blk
  · have hB' : H.blks h.blk = some B := hkb ▸ hB
    have h1 : B.refs ≠ 1 := fun h1 => wf.sole hi hB' h1 hj hk hkb
    refine ⟨{ B with refs := B.refs - 1 }, ?_, rfl, rfl, rfl⟩
    rw [hkb, release_blks_self hB', if_neg h1]
  · exact ⟨B, by rw [release_blks_ne hkb, hB], rfl, rfl, rfl⟩

theorem detach_eq (hi : H.bufs i = some h) : H.detach i = (H.release h.blk).setBuf i none := by
  unfold detach
  rw [hi]

theorem WF.detach (wf : H.WF guarded) (hi : H.bufs i = some h) : (H.detach i).WF guarded := by
  have hslot := wf.lt_slots hi
  have hbufs : ∀ j k, (H.detach i).bufs j = some k → j ≠ i ∧ H.bufs j = some k := by
    intro j k hk
    rw [detach_eq hi] at hk
    change Function.update (H.release h.blk).bufs i none j = some k at hk
    by_cases hj : j = i
    · subst hj
      simp at hk
    · rw [Function.update_of_ne hj, release_bufs] at hk
      exact ⟨hj, hk⟩
  constructor
  · intro b hb
    have hnext : H.next ≤ b := by simpa [detach_eq hi, setBuf, release_next] using hb
    have hnone := wf.fresh b hnext
    have hne : b ≠ h.blk := by
      rintro rfl
      obtain ⟨B, hB, -⟩ := wf.live i h hi
      rw [hB] at hnone
      cases hnone
    rw [detach_eq hi]
    change (H.release h.blk).blks b = none
    rw [release_blks_ne hne, hnone]
  · intro j hj
    have hj' : H.slots ≤ j := by simpa [detach_eq hi, setBuf, release_slots] using hj
    cases hk : (H.detach i).bufs j with
    | none => rfl
    | some k =>
      obtain ⟨-, hk⟩ := hbufs j k hk
      rw [wf.absent j hj'] at hk
      cases hk
  · intro j k p hk hd
    exact wf.own j k p (hbufs j k hk).2 hd
  · intro j k hk
    obtain ⟨hj, hk⟩ := hbufs j k hk
    obtain ⟨B, hB, hin⟩ := wf.live j k hk
    obtain ⟨B', hB', hm, hg, ht⟩ := wf.release_blks hi hj hk hB
    refine ⟨B', by rw [detach_eq hi]; exact hB', fun hgd => ?_⟩
    have := hin (ht ▸ hgd)
    unfold Handle.Within at this ⊢
    rw [hm, hg]
    exact this
  · intro b B hB
    rw [detach_eq hi] at hB ⊢
    have hcount := (H.release h.blk).count_setBuf
      (show i < (H.release h.blk).slots by rw [release_slots]; exact hslot) b none
    have hsame : (H.release h.blk).count b = H.count b := by
      simp only [count, release_slots, release_bufs]
    rw [hsame, release_bufs, hi] at hcount
    change (H.release h.blk).blks b = some B at hB
    by_cases hb : b = h.blk
    · obtain ⟨B₀, hB₀, -⟩ := wf.live i h hi
      have hrefs := wf.counted _ _ hB₀
      rw [hb, release_blks_self hB₀] at hB
      split_ifs at hB with h1
      obtain rfl := Option.some.inj hB
      have hpos : on h.blk (H.bufs i) ≤ H.count h.blk := H.on_le_count hslot _
      rw [hi] at hpos
      simp only [on, if_true] at hpos
      simp only [on, hb, if_true] at hcount
      rw [hb]
      change B₀.refs - 1 = _
      omega
    · rw [release_blks_ne hb] at hB
      have hzero : on b (some h) = 0 := by simp [on, Ne.symm hb]
      rw [hzero] at hcount
      simp only [on, Nat.add_zero] at hcount
      rw [hcount]
      exact wf.counted _ _ hB

theorem WF.frame_detach (wf : H.WF guarded) (hi : H.bufs i = some h) : Frame i H (H.detach i) := by
  have hbufs : ∀ j, j ≠ i → (H.detach i).bufs j = H.bufs j := by
    intro j hj
    rw [detach_eq hi]
    change Function.update (H.release h.blk).bufs i none j = H.bufs j
    rw [Function.update_of_ne hj, release_bufs]
  have hslots : (H.detach i).slots = H.slots := by
    rw [detach_eq hi]
    exact release_slots _
  refine ⟨hslots.ge, hbufs, fun j hj => content_congr (hbufs j hj) fun k p hk hd => Or.inr ?_⟩
  obtain ⟨B, hB, -⟩ := wf.live j k hk
  obtain ⟨B', hB', hm, hg, -⟩ := wf.release_blks hi hj hk hB
  rw [wf.own j k p hk hd]
  exact ⟨B, B', hB, by rw [detach_eq hi]; exact hB', hm, hg⟩

/-! ### Taking a handle -/

theorem WF.push (wf : H.WF guarded) : H.push.WF guarded where
  fresh := wf.fresh
  absent := fun j hj => wf.absent j (by simp only [RefHeap.push] at hj; omega)
  own := wf.own
  live := wf.live
  counted := fun b B hB => by
    rw [H.count_push (wf.absent _ le_rfl)]
    exact wf.counted b B hB

@[simp] theorem attach_bufs (mem : List α) (t : π) :
    (H.attach i mem t).bufs i =
      some ⟨H.next, Block.data ⟨mem, 0, 1, t⟩ H.next, mem.length⟩ := by
  simp [attach, setBuf, setBlk]

@[simp] theorem attach_blks (mem : List α) (t : π) :
    (H.attach i mem t).blks H.next = some ⟨mem, 0, 1, t⟩ := by
  simp [attach, setBuf, setBlk]

theorem attach_bufs_ne (mem : List α) (t : π) {j : Nat} (hj : j ≠ i) :
    (H.attach i mem t).bufs j = H.bufs j := by
  simp [attach, setBuf, setBlk, hj]

theorem attach_blks_ne (mem : List α) (t : π) {b : Nat} (hb : b ≠ H.next) :
    (H.attach i mem t).blks b = H.blks b := by
  simp [attach, setBuf, setBlk, hb]

theorem data_within (b size : Nat) (B : Block α π) (hsize : size = B.mem.length) :
    Handle.Within ⟨b, B.data b, size⟩ B := by
  unfold Handle.Within Block.data
  by_cases hm : B.mem = []
  · simp [hm, hsize]
  · simp [hm, hsize]

/-- Reading a block from its start. -/
theorem read_data {b n : Nat} (hb : H.blks b = some B) (hn : n ≤ B.mem.length) :
    H.read (B.data b) n = some (B.mem.take n) := by
  by_cases hz : n = 0
  · simp [read, hz]
  · have hm : B.mem ≠ [] := by
      intro hm
      rw [hm, List.length_nil] at hn
      omega
    simp [read, hz, Block.data, hm, hb, hn]

theorem content_attach (mem : List α) (t : π) : (H.attach i mem t).content i = some mem := by
  have hread := read_data (H := H.attach i mem t) (n := mem.length) (attach_blks mem t) le_rfl
  unfold content
  rw [attach_bufs]
  simpa using hread

theorem WF.attach (wf : H.WF guarded) (hslot : i < H.slots) (hi : H.bufs i = none) (mem : List α)
    (t : π) : (H.attach i mem t).WF guarded := by
  have hold : ∀ j k, H.bufs j = some k → k.blk ≠ H.next := by
    intro j k hk hkb
    obtain ⟨B, hB, -⟩ := wf.live j k hk
    have := wf.lt_next hB
    omega
  have hcount : ∀ b, (H.attach i mem t).count b = H.count b + on b ((H.attach i mem t).bufs i) := by
    intro b
    have := H.count_setBuf hslot b ((H.attach i mem t).bufs i)
    rw [hi] at this
    rw [attach_bufs] at this ⊢
    exact this
  constructor
  · intro b hb
    change H.next + 1 ≤ b at hb
    rw [attach_blks_ne mem t (by omega)]
    exact wf.fresh b (by omega)
  · intro j hj
    change H.slots ≤ j at hj
    rw [attach_bufs_ne mem t (by omega)]
    exact wf.absent j hj
  · intro j k p hk hd
    by_cases hj : j = i
    · subst hj
      rw [attach_bufs] at hk
      obtain rfl := Option.some.inj hk
      simp only [Block.data] at hd
      split_ifs at hd
      exact (Option.some.inj hd) ▸ rfl
    · rw [attach_bufs_ne mem t hj] at hk
      exact wf.own j k p hk hd
  · intro j k hk
    by_cases hj : j = i
    · subst hj
      rw [attach_bufs] at hk
      obtain rfl := Option.some.inj hk
      exact ⟨_, attach_blks mem t, fun _ => data_within _ _ _ rfl⟩
    · rw [attach_bufs_ne mem t hj] at hk
      obtain ⟨B, hB, hin⟩ := wf.live j k hk
      exact ⟨B, by rw [attach_blks_ne mem t (hold j k hk), hB], hin⟩
  · intro b B hB
    rw [hcount, attach_bufs]
    by_cases hb : b = H.next
    · subst hb
      rw [attach_blks] at hB
      obtain rfl := Option.some.inj hB
      have hzero : H.count H.next = 0 := by
        apply Finset.sum_eq_zero
        intro j _
        cases hk : H.bufs j with
        | none => rfl
        | some k => simp [on, hold j k hk]
      simp [on, hzero]
    · rw [attach_blks_ne mem t hb] at hB
      have : on b (some ⟨H.next, Block.data ⟨mem, 0, 1, t⟩ H.next, mem.length⟩) = 0 := by
        simp [on, Ne.symm hb]
      rw [this, Nat.add_zero]
      exact wf.counted b B hB

theorem WF.frame_attach (wf : H.WF guarded) (mem : List α) (t : π) :
    Frame i H (H.attach i mem t) := by
  refine ⟨le_rfl, fun j hj => attach_bufs_ne mem t hj, fun j hj => ?_⟩
  refine content_congr (attach_bufs_ne mem t hj) fun k p hk hd => Or.inl ?_
  obtain ⟨B, hB, -⟩ := wf.live j k hk
  have := wf.lt_next hB
  apply attach_blks_ne
  rw [wf.own j k p hk hd]
  omega

theorem share_eq (hb : H.blks h.blk = some B) : H.share i h =
    (H.setBlk h.blk (some { B with refs := B.refs + 1 })).setBuf i (some h) := by
  unfold share
  rw [hb]

theorem share_bufs (hb : H.blks h.blk = some B) : (H.share i h).bufs i = some h := by
  simp [share_eq hb, setBuf]

theorem share_bufs_ne (hb : H.blks h.blk = some B) {j : Nat} (hj : j ≠ i) :
    (H.share i h).bufs j = H.bufs j := by
  simp [share_eq hb, setBuf, setBlk, hj]

theorem share_blks_self (hb : H.blks h.blk = some B) :
    (H.share i h).blks h.blk = some { B with refs := B.refs + 1 } := by
  simp [share_eq hb, setBuf, setBlk]

theorem share_blks_ne (hb : H.blks h.blk = some B) {c : Nat} (hc : c ≠ h.blk) :
    (H.share i h).blks c = H.blks c := by
  simp [share_eq hb, setBuf, setBlk, hc]

/-- Sharing changes no memory. -/
theorem share_blks (hb : H.blks h.blk = some B) {c : Nat} {C : Block α π} (hc : H.blks c = some C) :
    ∃ C', (H.share i h).blks c = some C' ∧ C'.mem = C.mem ∧ C'.gen = C.gen ∧ C'.tag = C.tag := by
  by_cases hch : c = h.blk
  · subst hch
    rw [hb] at hc
    obtain rfl := Option.some.inj hc
    exact ⟨_, share_blks_self hb, rfl, rfl, rfl⟩
  · exact ⟨C, by rw [share_blks_ne hb hch, hc], rfl, rfl, rfl⟩

theorem WF.share (wf : H.WF guarded) (hslot : i < H.slots) (hi : H.bufs i = none)
    (hb : H.blks h.blk = some B) (hown : ∀ p, h.data = some p → p.blk = h.blk)
    (hin : guarded B.tag → h.Within B) : (H.share i h).WF guarded := by
  have hnext : (H.share i h).next = H.next := by rw [share_eq hb]; rfl
  have hslots : (H.share i h).slots = H.slots := by rw [share_eq hb]; rfl
  constructor
  · intro b hle
    rw [hnext] at hle
    have := wf.lt_next hb
    rw [share_blks_ne hb (by omega)]
    exact wf.fresh b hle
  · intro j hj
    rw [hslots] at hj
    rw [share_bufs_ne hb (by omega)]
    exact wf.absent j hj
  · intro j k p hk hd
    by_cases hj : j = i
    · subst hj
      rw [share_bufs hb] at hk
      obtain rfl := Option.some.inj hk
      exact hown p hd
    · rw [share_bufs_ne hb hj] at hk
      exact wf.own j k p hk hd
  · intro j k hk
    by_cases hj : j = i
    · subst hj
      rw [share_bufs hb] at hk
      obtain rfl := Option.some.inj hk
      exact ⟨_, share_blks_self hb, hin⟩
    · rw [share_bufs_ne hb hj] at hk
      obtain ⟨C, hC, hkin⟩ := wf.live j k hk
      obtain ⟨C', hC', hm, hg, ht⟩ := share_blks (i := i) hb hC
      refine ⟨C', hC', fun hgd => ?_⟩
      have := hkin (ht ▸ hgd)
      unfold Handle.Within at this ⊢
      rw [hm, hg]
      exact this
  · intro b C hC
    have hcount := (H.setBlk h.blk (some { B with refs := B.refs + 1 })).count_setBuf
      (show i < H.slots from hslot) b (some h)
    rw [← share_eq hb] at hcount
    change (H.share i h).count b + on b (H.bufs i) = H.count b + on b (some h) at hcount
    rw [hi] at hcount
    simp only [on, Nat.add_zero] at hcount
    by_cases hbh : b = h.blk
    · subst hbh
      rw [share_blks_self hb] at hC
      obtain rfl := Option.some.inj hC
      rw [if_pos rfl] at hcount
      rw [hcount, ← wf.counted _ _ hb]
    · rw [share_blks_ne hb hbh] at hC
      rw [if_neg (Ne.symm hbh), Nat.add_zero] at hcount
      rw [hcount]
      exact wf.counted b C hC

theorem WF.frame_share (wf : H.WF guarded) (hb : H.blks h.blk = some B) :
    Frame i H (H.share i h) := by
  refine ⟨by rw [share_eq hb]; exact le_rfl, fun j hj => share_bufs_ne hb hj, fun j hj => ?_⟩
  refine content_congr (share_bufs_ne hb hj) fun k p hk hd => Or.inr ?_
  obtain ⟨C, hC, -⟩ := wf.live j k hk
  obtain ⟨C', hC', hm, hg, -⟩ := share_blks (i := i) hb hC
  rw [wf.own j k p hk hd]
  exact ⟨C, C', hC, hC', hm, hg⟩

/-- A new handle sees the range it was given. -/
theorem content_share (hb : H.blks h.blk = some B) (hown : ∀ p, h.data = some p → p.blk = h.blk) :
    (H.share i h).content i = H.read h.data h.size := by
  unfold content
  rw [share_bufs hb]
  change (H.share i h).read h.data h.size = _
  cases hd : h.data with
  | none => simp [read]
  | some p =>
    have hB : H.blks p.blk = some B := by rw [hown p hd, hb]
    have hB' : (H.share i h).blks p.blk = some { B with refs := B.refs + 1 } := by
      rw [hown p hd, share_blks_self hb]
    exact read_mem_congr hB hB' rfl rfl

/-! ### Changing a block and the range of a handle -/

theorem setBlk_self {b : Nat} (hb : H.blks b = some B) : H.setBlk b (some B) = H := by
  simp [RefHeap.setBlk, ← hb]

theorem setBuf_self (hi : H.bufs i = some h) : H.setBuf i (some h) = H := by
  simp [RefHeap.setBuf, ← hi]

/-- A handle may change its block and its own range as long as the handles that are promised a
range still have it. -/
theorem WF.update (wf : H.WF guarded) (hi : H.bufs i = some h) (hb : H.blks h.blk = some B)
    {h' : Handle} {B' : Block α π} (hblk : h'.blk = h.blk) (hrefs : B'.refs = B.refs)
    (htag : B'.tag = B.tag) (hown : ∀ p, h'.data = some p → p.blk = h'.blk)
    (hin : guarded B.tag → h'.Within B')
    (hins : guarded B.tag → ∀ j k, j ≠ i → H.bufs j = some k → k.blk = h.blk → k.Within B') :
    ((H.setBlk h.blk (some B')).setBuf i (some h')).WF guarded := by
  have hslot := wf.lt_slots hi
  constructor
  · intro c hc
    change H.next ≤ c at hc
    have := wf.lt_next hb
    change Function.update H.blks h.blk (some B') c = none
    rw [Function.update_of_ne (by omega)]
    exact wf.fresh c hc
  · intro j hj
    change H.slots ≤ j at hj
    change Function.update H.bufs i (some h') j = none
    rw [Function.update_of_ne (by omega)]
    exact wf.absent j hj
  · intro j k p hk hd
    change Function.update H.bufs i (some h') j = some k at hk
    by_cases hj : j = i
    · subst hj
      rw [Function.update_self] at hk
      obtain rfl := Option.some.inj hk
      exact hown p hd
    · rw [Function.update_of_ne hj] at hk
      exact wf.own j k p hk hd
  · intro j k hk
    change Function.update H.bufs i (some h') j = some k at hk
    change ∃ C, Function.update H.blks h.blk (some B') k.blk = some C ∧
      (guarded C.tag → k.Within C)
    by_cases hj : j = i
    · subst hj
      rw [Function.update_self] at hk
      obtain rfl := Option.some.inj hk
      rw [hblk, Function.update_self]
      exact ⟨B', rfl, fun hgd => hin (htag ▸ hgd)⟩
    · rw [Function.update_of_ne hj] at hk
      by_cases hkb : k.blk = h.blk
      · rw [hkb, Function.update_self]
        exact ⟨B', rfl, fun hgd => hins (htag ▸ hgd) j k hj hk hkb⟩
      · rw [Function.update_of_ne hkb]
        exact wf.live j k hk
  · intro b C hC
    have hcount := (H.setBlk h.blk (some B')).count_setBuf hslot b (some h')
    change _ + on b (H.bufs i) = H.count b + _ at hcount
    rw [hi] at hcount
    simp only [on, hblk] at hcount
    have hsame : ((H.setBlk h.blk (some B')).setBuf i (some h')).count b = H.count b := by omega
    change Function.update H.blks h.blk (some B') b = some C at hC
    rw [hsame]
    by_cases hbh : b = h.blk
    · subst hbh
      rw [Function.update_self] at hC
      obtain rfl := Option.some.inj hC
      rw [hrefs]
      exact wf.counted _ _ hb
    · rw [Function.update_of_ne hbh] at hC
      exact wf.counted b C hC

theorem WF.rebind (wf : H.WF guarded) (hi : H.bufs i = some h) {h' : Handle} (hblk : h'.blk = h.blk)
    (hb : H.blks h.blk = some B) (hown : ∀ p, h'.data = some p → p.blk = h'.blk)
    (hin : guarded B.tag → h'.Within B) : (H.setBuf i (some h')).WF guarded := by
  have := wf.update hi hb hblk rfl rfl hown hin fun hgd _ _ _ hk hkb => wf.within hb hgd hk hkb
  rwa [setBlk_self hb] at this

theorem frame_setBuf (x : Option Handle) : Frame i H (H.setBuf i x) := by
  have hbufs : ∀ j, j ≠ i → (H.setBuf i x).bufs j = H.bufs j := by
    intro j hj
    simp [setBuf, hj]
  exact ⟨le_rfl, hbufs, fun j hj => content_congr (hbufs j hj) fun _ _ _ _ => Or.inl rfl⟩

/-- The only handle on a block may change it without the others noticing. -/
theorem WF.frame_setBlk (wf : H.WF guarded) (hi : H.bufs i = some h) (hb : H.blks h.blk = some B)
    (huniq : B.refs = 1) (x : Option (Block α π)) : Frame i H (H.setBlk h.blk x) := by
  refine ⟨le_rfl, fun j _ => rfl, fun j hj => content_congr rfl fun k p hk hd => Or.inl ?_⟩
  change Function.update H.blks h.blk x p.blk = H.blks p.blk
  rw [Function.update_of_ne]
  rw [wf.own j k p hk hd]
  exact wf.sole hi hb huniq hj hk

theorem within_splice (hin : h.Within B) {off : Nat} {bs : List α}
    (hlen : off + bs.length ≤ B.mem.length) : h.Within { B with mem := splice B.mem off bs } := by
  unfold Handle.Within at hin ⊢
  cases hd : h.data with
  | none =>
    rw [hd] at hin
    have hbs : bs = [] := by
      rw [hin.2, List.length_nil] at hlen
      exact List.eq_nil_of_length_eq_zero (by omega)
    simpa [hbs] using hin
  | some p =>
    rw [hd] at hin
    simpa [length_splice _ _ _ hlen] using hin

/-- The address `n` bytes into the range of the handle. -/
def Handle.at (h : Handle) (n : Nat) : Option Ptr := h.data.map (Ptr.add · n)

/-- Store into the range of the handle. -/
theorem WF.write (wf : H.WF guarded) (hh : H.Holds i h B) {k : Nat} {bs : List α}
    (hk : k + bs.length ≤ h.size) {c : List α} (hc : H.content i = some c) :
    ∃ B' : Block α π, B'.mem.length = B.mem.length ∧ B'.gen = B.gen ∧ B'.refs = B.refs ∧
      B'.tag = B.tag ∧ h.Within B' ∧ H.write (h.at k) bs = some (H.setBlk h.blk (some B')) ∧
      (H.setBlk h.blk (some B')).WF guarded ∧
      (H.setBlk h.blk (some B')).content i = some (splice c k bs) := by
  obtain ⟨hi, hb, hin⟩ := hh
  obtain ⟨off, hread, hnull, hptr⟩ := read_within hb hin
  have hc' : c = (B.mem.drop off).take h.size := by
    unfold content at hc
    rw [hi] at hc
    exact (Option.some.inj (hc.symm.trans hread))
  cases hd : h.data with
  | none =>
    have hz := hnull hd
    have hbs : bs = [] := List.eq_nil_of_length_eq_zero (by omega)
    have hself := setBlk_self hb
    exact ⟨B, rfl, rfl, rfl, rfl, hin, by simp [RefHeap.write, hbs, hself], by rwa [hself],
      by rw [hself, hbs, splice_nil, hc]⟩
  | some p =>
    obtain ⟨rfl, hle⟩ := hptr p hd
    have hlen : off + k + bs.length ≤ B.mem.length := by omega
    refine ⟨{ B with mem := splice B.mem (off + k) bs }, length_splice _ _ _ hlen, rfl, rfl, rfl,
      within_splice hin hlen, ?_, ?_, ?_⟩
    · by_cases hbs : bs = []
      · simp [RefHeap.write, hbs, setBlk_self hb]
      · simp [RefHeap.write, Handle.at, hd, Ptr.add, hb, hbs, hlen]
    · have hupd : ((H.setBlk h.blk (some { B with mem := splice B.mem (off + k) bs })).setBuf i
          (some h)).WF guarded :=
        wf.update hi hb rfl rfl rfl (wf.own i h · hi) (fun _ => within_splice hin hlen)
          fun hgd _ _ _ hl hlb => within_splice (wf.within hb hgd hl hlb) hlen
      rwa [setBuf_self (H := H.setBlk _ _) hi] at hupd
    · have hcontent : (H.setBlk h.blk (some { B with mem := splice B.mem (off + k) bs })).content i
          = some (((splice B.mem (off + k) bs).drop off).take h.size) := by
        unfold content
        change (do let h ← H.bufs i; _) = _
        rw [hi]
        change RefHeap.read _ h.data h.size = _
        by_cases hz : h.size = 0
        · simp [read, hz]
        · simp [read, hz, hd, RefHeap.setBlk, length_splice _ _ _ hlen, hle]
      rw [hcontent, hc', take_drop_splice _ _ _ _ _ hk hle]

theorem WF.bump (wf : H.WF guarded) : WF guarded { H with next := H.next + 1 } where
  fresh := fun b hb => wf.fresh b (Nat.le_of_succ_le hb)
  absent := wf.absent
  own := wf.own
  live := wf.live
  counted := wf.counted

/-- Reallocate the block of the handle and point the handle at the start of it.  A guarded block
must have no other handle: the old memory is gone. -/
theorem WF.grow (wf : H.WF guarded) (hi : H.bufs i = some h) (hb : H.blks h.blk = some B)
    (hfree : B.refs = 1 ∨ ¬ guarded B.tag) (pad : List α) {n : Nat}
    (hn : n = B.mem.length + pad.length) :
    let B' : Block α π := { B with mem := B.mem ++ pad, gen := B.gen + 1 }
    let H' := (H.grow h.blk pad).setBuf i (some ⟨h.blk, B'.data h.blk, n⟩)
    H'.WF guarded ∧ H'.Holds i ⟨h.blk, B'.data h.blk, n⟩ B' ∧ H'.content i = some (B.mem ++ pad) ∧
      (B.refs = 1 → Frame i H H') := by
  intro B' H'
  have hH' : H' = { (H.setBlk h.blk (some B')).setBuf i (some ⟨h.blk, B'.data h.blk, n⟩) with
      next := H.next + 1 } := by
    simp only [H', RefHeap.grow, hb, B']
    rfl
  have hlen : B'.mem.length = n := by simp [B', hn]
  have hin : Handle.Within ⟨h.blk, B'.data h.blk, n⟩ B' := data_within _ _ _ hlen.symm
  have hbuf : H'.bufs i = some ⟨h.blk, B'.data h.blk, n⟩ := by simp [hH', setBuf]
  have hblk : H'.blks h.blk = some B' := by simp [hH', setBuf, RefHeap.setBlk]
  refine ⟨?_, ⟨hbuf, hblk, hin⟩, ?_, fun huniq => ?_⟩
  · rw [hH']
    refine WF.bump (wf.update hi hb rfl rfl rfl (fun p hp => ?_) (fun _ => hin)
      fun hgd j k hj hk hkb => ?_)
    · simp only [Block.data] at hp
      split_ifs at hp
      exact (Option.some.inj hp) ▸ rfl
    · rcases hfree with huniq | hfree
      · exact absurd hkb (wf.sole hi hb huniq hj hk)
      · exact absurd hgd hfree
  · have hread := read_data hblk hlen.ge
    unfold content
    rw [hbuf]
    exact hread.trans (congrArg some (List.take_of_length_le hlen.le))
  · have := (wf.frame_setBlk hi hb huniq (some B')).trans
      (frame_setBuf (i := i) (some ⟨h.blk, B'.data h.blk, n⟩))
    rw [hH']
    exact ⟨this.slots, this.bufs, this.content⟩

end

end RefHeap
