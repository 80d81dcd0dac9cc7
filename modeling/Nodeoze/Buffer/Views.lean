import Nodeoze.Buffer.Contents

/-!
# What un-sharing does to the view

A handle is given a block of its own by copying what it shows.  Only `force_unique( nbytes )` copies
from where the block starts instead, which is where the handle's range starts unless it is a slice.
-/

namespace Nodeoze.Buffer

open RefHeap Splice

/-- The operation returns, and leaves the handle with these bytes on a block of its own. -/
def Owns (r : Option Heap) (i : Nat) (c : List UInt8) : Prop :=
  ∃ H', r = some H' ∧ H'.content i = some c ∧ sizeOf H' i = c.length ∧ isUnique H' i = some true

/-- The same of the first `n` bytes only. -/
def OwnsFront (r : Option Heap) (i n : Nat) (c : List UInt8) : Prop :=
  ∃ H' c', r = some H' ∧ H'.content i = some c' ∧ sizeOf H' i = c.length ∧ c'.take n = c.take n ∧
    isUnique H' i = some true

section

variable {H : Heap} {i : Nat} {h : Handle} {B : Block UInt8 Policy} {c : List UInt8}

theorem Owns.shows {r : Option Heap} (hr : Owns r i c) : Shows r i c := by
  obtain ⟨H', hsome, hcontent, hsize, -⟩ := hr
  exact ⟨H', hsome, hcontent, hsize⟩

theorem Owned.owns (o : Owned H i h B c) (hone : B.refs = 1) : Owns (some H) i c := by
  refine ⟨H, rfl, o.content, by rw [sizeOf_eq o.buf, o.length], ?_⟩
  rw [o.isUnique, decide_eq_true hone]

theorem Owned.owns_clone (o : Owned H i h B c) : Owns (Buffer.clone H i) i c := by
  obtain ⟨H', h', B', hclone, o', -, -, hone, -⟩ := o.clone
  rw [hclone]
  exact o'.owns hone

theorem Owned.forceUnique (o : Owned H i h B c) :
    ∃ H' h' B', Buffer.forceUnique H i = some H' ∧ Owned H' i h' B' c ∧ B'.refs = 1 := by
  by_cases hone : B.refs = 1
  · exact ⟨H, h, B, by simp [Buffer.forceUnique, o.isUnique, hone], o, hone⟩
  · obtain ⟨H', h', B', hclone, o', -, -, hone', -⟩ := o.clone
    exact ⟨H', h', B', by simp [Buffer.forceUnique, o.isUnique, hone, hclone], o', hone'⟩

theorem Owned.owns_forceUnique (o : Owned H i h B c) : Owns (Buffer.forceUnique H i) i c := by
  obtain ⟨H', h', B', hforce, o', hone⟩ := o.forceUnique
  rw [hforce]
  exact o'.owns hone

theorem Owned.shows_mutableData (o : Owned H i h B c) : Shows (Buffer.mutableData H i) i c := by
  obtain ⟨H', h', B', hrun, o', -⟩ := o.mutableData
  rw [hrun]
  exact o'.shows

theorem Owned.owns_mutableData (o : Owned H i h B c) (hpol : B.tag ≠ .noCopyOnWrite) :
    Owns (Buffer.mutableData H i) i c := by
  obtain ⟨H', h', B', hrun, o', -, hw, -, hguarded⟩ := o.mutableData
  rw [hrun]
  exact o'.owns (hw.unique (hguarded hpol))

/-- A new policy for the block changes nothing that is seen. -/
theorem Owned.owns_retag (o : Owned H i h B c) (hone : B.refs = 1) (pol : Policy) :
    Owns (some (H.setBlk h.blk (some { B with tag := pol }))) i c := by
  refine ⟨_, rfl, ?_, ?_, ?_⟩
  · rw [← o.content]
    refine content_congr rfl ?_
    intro k p hk hp
    obtain rfl := Option.some.inj (o.buf.symm.trans hk)
    refine Or.inr ⟨B, { B with tag := pol }, ?_, ?_, rfl, rfl⟩
    · rw [o.wf.own i h p o.buf hp]
      exact o.blk
    · rw [o.wf.own i h p o.buf hp]
      exact setBlk_blks_self _ _ _
  · have hsize : sizeOf (H.setBlk h.blk (some { B with tag := pol })) i = h.size := sizeOf_eq o.buf
    rw [hsize, o.length]
  · have hunique := isUnique_eq (H := H.setBlk h.blk (some { B with tag := pol })) o.buf
      (setBlk_blks_self _ _ _)
    rw [hunique]
    exact congrArg some (decide_eq_true hone)

theorem Owned.owns_setPolicy (o : Owned H i h B c) {pol : Policy} (hpol : B.tag ≠ pol) :
    Owns (setPolicy H i pol) i c := by
  obtain ⟨H₁, h₁, B₁, hforce, o₁, hone⟩ := o.forceUnique
  have hset : setPolicy H i pol = some (H₁.setBlk h₁.blk (some { B₁ with tag := pol })) := by
    simp [setPolicy, o.isPolicy, hpol, hforce, o₁.buf, o₁.blk]
  rw [hset]
  exact o₁.owns_retag hone pol

theorem Owned.shows_setPolicy (o : Owned H i h B c) (pol : Policy) :
    Shows (setPolicy H i pol) i c := by
  by_cases hpol : B.tag = pol
  · have hsame : setPolicy H i pol = some H := by simp [setPolicy, o.isPolicy, hpol]
    rw [hsame]
    exact o.shows
  · exact (o.owns_setPolicy hpol).shows

variable (junk : Nat → Nat → UInt8)

theorem Owned.ownsFront_iff (o : Owned H i h B c) {n : Nat} (hn : n ≤ h.size) :
    OwnsFront (Buffer.forceUniqueN junk H i n) i n c ↔ B.refs = 1 ∨ B.mem.take n = c.take n := by
  by_cases hone : B.refs = 1
  · refine iff_of_true ⟨H, c, ?_, o.content, ?_, rfl, ?_⟩ (Or.inl hone)
    · simp [Buffer.forceUniqueN, o.isUnique, hone]
    · rw [sizeOf_eq o.buf, o.length]
    · rw [o.isUnique, decide_eq_true hone]
  · rw [or_iff_right hone]
    have hmem : n ≤ B.mem.length := hn.trans o.size_le
    have hread := read_data o.blk hmem
    let copied := splice (malloc junk H.next h.size) 0 (B.mem.take n)
    have hfront : copied.take n = B.mem.take n := by
      have hlen : (B.mem.take n).length = n := by rw [List.length_take, min_eq_left hmem]
      have htake := splice_zero_take (malloc junk H.next h.size) (B.mem.take n)
      rwa [hlen] at htake
    have hsize : copied.length = h.size := by
      show (splice _ 0 _).length = _
      rw [length_splice _ _ _ (by rw [length_malloc, List.length_take]; omega), length_malloc]
    obtain ⟨h', B', o', -, -, hone', -⟩ := o.replace copied .copyOnWrite
    have hrun : Buffer.forceUniqueN junk H i n =
        some ((unshare H i).attach i copied .copyOnWrite) := by
      simp [Buffer.forceUniqueN, o.isUnique, hone, o.buf, o.blk, hread, hn, copied]
    constructor
    · rintro ⟨H', c', hsome, hcontent, -, htake, -⟩
      rw [hrun] at hsome
      obtain rfl := Option.some.inj hsome
      obtain rfl := Option.some.inj (o'.content.symm.trans hcontent)
      rw [← hfront, htake]
    · intro hsame
      refine ⟨_, copied, hrun, o'.content, ?_, by rw [hfront, hsame], ?_⟩
      · rw [sizeOf_eq o'.buf, ← o'.length, hsize, o.length]
      · rw [o'.isUnique, decide_eq_true hone']

/-- After any allowed run, un-sharing leaves what a handle shows as it was; a call that has something to
un-share leaves the handle alone on its block, too.  `force_unique( nbytes )` does so if and only if the
handle is alone already, or the front of its block is the front of what it shows. -/
theorem unsharing_keeps_view (ops : List Op) (hallow : allowsRun junk RefHeap.empty ops = true) :
    ∃ H, run junk RefHeap.empty ops = some H ∧ ∀ i h, H.bufs i = some h →
      ∃ B c, H.blks h.blk = some B ∧ H.content i = some c ∧ c.length = sizeOf H i ∧
        Owns (Buffer.clone H i) i c ∧ Owns (Buffer.forceUnique H i) i c ∧
        (∀ pol, Shows (setPolicy H i pol) i c ∧ (B.tag ≠ pol → Owns (setPolicy H i pol) i c)) ∧
        Shows (Buffer.mutableData H i) i c ∧
        (B.tag ≠ .noCopyOnWrite → Owns (Buffer.mutableData H i) i c) ∧
        ∀ n ≤ sizeOf H i, OwnsFront (Buffer.forceUniqueN junk H i n) i n c ↔
          B.refs = 1 ∨ B.mem.take n = c.take n := by
  obtain ⟨H, hrun, inv⟩ := inv_of_run junk hallow
  refine ⟨H, hrun, fun i h hi => ?_⟩
  obtain ⟨B, c, o, -⟩ := inv.owned hi
  refine ⟨B, c, o.blk, o.content, by rw [o.length, sizeOf_eq hi], o.owns_clone, o.owns_forceUnique,
    fun pol => ⟨o.shows_setPolicy pol, o.owns_setPolicy⟩, o.shows_mutableData, o.owns_mutableData,
    fun n hn => ?_⟩
  rw [sizeOf_eq hi] at hn
  exact o.ownsFront_iff junk hn

theorem unsharing_keeps_view_sliceRun :
    ∃ H, run (fun _ _ => 0) RefHeap.empty sliceRun = some H ∧ Owns (Buffer.clone H 1) 1 [2, 3] ∧
      Owns (Buffer.mutableData H 0) 0 [1, 2, 3, 4] ∧ Owns (setPolicy H 1 .exclusive) 1 [2, 3] ∧
      OwnsFront (Buffer.forceUniqueN (fun _ _ => 0) H 0 3) 0 3 [1, 2, 3, 4] := by
  obtain ⟨H, hrun, hall⟩ := unsharing_keeps_view (fun _ _ => 0) sliceRun (by decide)
  refine ⟨H, hrun, ?_⟩
  obtain rfl := Option.some.inj hrun
  obtain ⟨B₀, c₀, hB₀, hc₀, -, -, -, -, -, hmutable, hfront⟩ := hall 0 _ rfl
  obtain ⟨B₁, c₁, hB₁, hc₁, -, hclone, -, hpolicy, -⟩ := hall 1 _ rfl
  obtain rfl := Option.some.inj hB₀
  obtain rfl := Option.some.inj hc₀
  obtain rfl := Option.some.inj hB₁
  obtain rfl := Option.some.inj hc₁
  refine ⟨hclone, hmutable ?_, (hpolicy .exclusive).2 ?_, (hfront 3 ?_).mpr (.inr rfl)⟩
  · decide
  · decide
  · decide

/-- A slice that starts with the second byte is put on a block that starts with the first one. -/
theorem slice_loses_view :
    ∃ H, run (fun _ _ => 0) RefHeap.empty
        [.construct [1, 2, 3, 4] .copyOnWrite, .slice 0 1 2 false] = some H ∧
      H.content 1 = some [2, 3] ∧ Owns (Buffer.forceUniqueN (fun _ _ => 0) H 1 2) 1 [1, 2] ∧
      ¬OwnsFront (Buffer.forceUniqueN (fun _ _ => 0) H 1 2) 1 2 [2, 3] := by
  refine ⟨_, rfl, rfl, ⟨_, rfl, rfl, rfl, rfl⟩, ?_⟩
  rintro ⟨H', c', hsome, hcontent, -, htake, -⟩
  obtain rfl := Option.some.inj hsome
  obtain rfl := Option.some.inj hcontent
  cases htake

end

end Nodeoze.Buffer
