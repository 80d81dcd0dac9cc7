import Nodeoze.Lib.RefHeap

/-!
# Reference-counted tokens

A heap of blocks without memory: a block is its tag, and a handle only says which block it is on.  Every
handle is on a block, every block counts its handles, and no block is without one, so that the tags that
are there are those of the blocks with handles.
-/

namespace RefHeap

variable {π : Type} {H : RefHeap Unit π}

/-- The block that a handle is on. -/
def blockOf (H : RefHeap Unit π) (i : Nat) : Option Nat := (H.bufs i).map Handle.blk

def tagOf (H : RefHeap Unit π) (b : Nat) : Option π := (H.blks b).map Block.tag

/-- A new tag for a block. -/
def retag (H : RefHeap Unit π) (b : Nat) (t : π) : RefHeap Unit π :=
  match H.blks b with
  | none => H
  | some B => H.setBlk b (some { B with tag := t })

/-- The handle in slot `j` goes to slot `i`. -/
def transfer (H : RefHeap Unit π) (i j : Nat) : RefHeap Unit π := (H.setBuf i (H.bufs j)).setBuf j none

/-- The counts are right, and no block is without a handle. -/
structure Counted (H : RefHeap Unit π) : Prop where
  wf : H.WF fun _ => False
  held : ∀ b t, H.tagOf b = some t → ∃ i, H.blockOf i = some b

theorem bufs_of_blockOf {i b : Nat} (h : H.blockOf i = some b) : ∃ k, H.bufs i = some k ∧ k.blk = b :=
  Option.map_eq_some_iff.mp h

theorem blks_of_tagOf {b : Nat} {t : π} (h : H.tagOf b = some t) : ∃ B, H.blks b = some B ∧ B.tag = t :=
  Option.map_eq_some_iff.mp h

namespace Counted

theorem empty : (RefHeap.empty : RefHeap Unit π).Counted := ⟨WF.empty, fun _ _ h => nomatch h⟩

theorem lt_slots (hH : H.Counted) {i b : Nat} (h : H.blockOf i = some b) : i < H.slots := by
  obtain ⟨k, hk, -⟩ := bufs_of_blockOf h
  exact hH.wf.lt_slots hk

theorem absent (hH : H.Counted) {i : Nat} (h : H.slots ≤ i) : H.blockOf i = none := by
  rw [blockOf, hH.wf.absent i h, Option.map_none]

theorem fresh (hH : H.Counted) {b : Nat} (h : H.next ≤ b) : H.tagOf b = none := by
  rw [tagOf, hH.wf.fresh b h, Option.map_none]

theorem lt_next (hH : H.Counted) {i b : Nat} (h : H.blockOf i = some b) : b < H.next := by
  obtain ⟨k, hk, rfl⟩ := bufs_of_blockOf h
  obtain ⟨B, hB, -⟩ := hH.wf.live i k hk
  exact hH.wf.lt_next hB

theorem tag (hH : H.Counted) {i b : Nat} (h : H.blockOf i = some b) : ∃ t, H.tagOf b = some t := by
  obtain ⟨k, hk, rfl⟩ := bufs_of_blockOf h
  obtain ⟨B, hB, -⟩ := hH.wf.live i k hk
  exact ⟨B.tag, by rw [tagOf, hB, Option.map_some]⟩

/-- A block counts one handle if and only if no other handle is on it. -/
theorem refs_eq_one (hH : H.Counted) {i b : Nat} (h : H.blockOf i = some b) {B : Block Unit π}
    (hB : H.blks b = some B) : B.refs = 1 ↔ ∀ j, H.blockOf j = some b → j = i := by
  obtain ⟨k, hk, rfl⟩ := bufs_of_blockOf h
  constructor
  · intro hone j hj
    obtain ⟨l, hl, hlb⟩ := bufs_of_blockOf hj
    by_contra hne
    exact hH.wf.sole hk hB hone hne hl hlb
  · intro honly
    rw [hH.wf.counted _ _ hB, count, Finset.sum_eq_single i]
    · rw [hk, on, if_pos rfl]
    · intro j _ hne
      cases hj : H.bufs j with
      | none => rfl
      | some l =>
        rw [on, if_neg]
        intro hl
        exact hne (honly j (by rw [blockOf, hj, Option.map_some, hl]))
    · intro hmem
      exact absurd (Finset.mem_range.mpr (hH.wf.lt_slots hk)) hmem

end Counted

/-! ## A new block -/

theorem blockOf_push (i : Nat) : H.push.blockOf i = H.blockOf i := rfl

theorem tagOf_push (b : Nat) : H.push.tagOf b = H.tagOf b := rfl

theorem Counted.push (hH : H.Counted) : H.push.Counted := ⟨hH.wf.push, hH.held⟩

theorem blockOf_attach (i j : Nat) (t : π) :
    (H.attach i [] t).blockOf j = if j = i then some H.next else H.blockOf j := by
  unfold blockOf
  split_ifs with hj
  · rw [hj, attach_bufs, Option.map_some]
  · rw [attach_bufs_ne _ _ hj]

theorem tagOf_attach (i b : Nat) (t : π) :
    (H.attach i [] t).tagOf b = if b = H.next then some t else H.tagOf b := by
  unfold tagOf
  split_ifs with hb
  · rw [hb, attach_blks, Option.map_some]
  · rw [attach_blks_ne _ _ hb]

theorem Counted.attach (hH : H.Counted) {i : Nat} (hi : i < H.slots) (hnone : H.blockOf i = none) (t : π) :
    (H.attach i [] t).Counted := by
  refine ⟨hH.wf.attach hi (Option.map_eq_none_iff.mp hnone) [] t, fun b t' htag => ?_⟩
  rw [tagOf_attach] at htag
  split_ifs at htag with hb
  · exact ⟨i, by rw [blockOf_attach, if_pos rfl, hb]⟩
  · obtain ⟨j, hj⟩ := hH.held b t' htag
    refine ⟨j, ?_⟩
    rw [blockOf_attach, if_neg, hj]
    rintro rfl
    rw [hnone] at hj
    contradiction

/-! ## One more handle -/

theorem blockOf_share {i j : Nat} {k : Handle} {B : Block Unit π} (hB : H.blks k.blk = some B) :
    (H.share i k).blockOf j = if j = i then some k.blk else H.blockOf j := by
  unfold blockOf
  split_ifs with hj
  · rw [hj, share_bufs hB, Option.map_some]
  · rw [share_bufs_ne hB hj]

theorem tagOf_share {i b : Nat} {k : Handle} {B : Block Unit π} (hB : H.blks k.blk = some B) :
    (H.share i k).tagOf b = H.tagOf b := by
  unfold tagOf
  by_cases hb : b = k.blk
  · rw [hb, share_blks_self hB, hB]
    rfl
  · rw [share_blks_ne hB hb]

theorem Counted.share (hH : H.Counted) {i j : Nat} {k : Handle} (hi : i < H.slots)
    (hnone : H.blockOf i = none) (hk : H.bufs j = some k) : (H.share i k).Counted := by
  obtain ⟨B, hB, -⟩ := hH.wf.live j k hk
  refine ⟨hH.wf.share hi (Option.map_eq_none_iff.mp hnone) hB (fun p hp => hH.wf.own j k p hk hp) False.elim,
    fun b t htag => ?_⟩
  rw [tagOf_share hB] at htag
  obtain ⟨l, hl⟩ := hH.held b t htag
  refine ⟨l, ?_⟩
  rw [blockOf_share hB, if_neg, hl]
  rintro rfl
  rw [hnone] at hl
  contradiction

/-! ## One handle less -/

theorem blockOf_detach (i j : Nat) : (H.detach i).blockOf j = if j = i then none else H.blockOf j := by
  cases hi : H.bufs i with
  | none =>
    have hsame : H.detach i = H := by rw [detach, hi]
    rw [hsame]
    split_ifs with hj
    · rw [blockOf, hj, hi, Option.map_none]
    · rfl
  | some k =>
    rw [detach_eq hi]
    simp only [blockOf, setBuf, release_bufs, Function.update_apply]
    split_ifs with hj
    · rfl
    · rfl

/-- The tags that are left are those of the blocks that another handle is on. -/
theorem Counted.tagOf_detach (hH : H.Counted) {i b : Nat} (hi : H.blockOf i = some b) (c : Nat) (t : π) :
    (H.detach i).tagOf c = some t ↔ H.tagOf c = some t ∧ ∃ j, j ≠ i ∧ H.blockOf j = some c := by
  obtain ⟨k, hk, rfl⟩ := bufs_of_blockOf hi
  obtain ⟨B, hB, -⟩ := hH.wf.live i k hk
  rw [detach_eq hk]
  change ((H.release k.blk).blks c).map Block.tag = some t ↔ _
  by_cases hc : c = k.blk
  · rw [hc, release_blks_self hB, tagOf, hB]
    by_cases hone : B.refs = 1
    · rw [if_pos hone, Option.map_none]
      refine ⟨(fun h => nomatch h), ?_⟩
      rintro ⟨-, j, hne, hj⟩
      exact absurd ((hH.refs_eq_one hi hB).mp hone j hj) hne
    · rw [if_neg hone]
      rw [hH.refs_eq_one hi hB, not_forall] at hone
      obtain ⟨j, hj⟩ := hone
      rw [Classical.not_imp] at hj
      exact ⟨fun h => ⟨h, j, hj.2, hj.1⟩, And.left⟩
  · rw [release_blks_ne hc]
    refine ⟨fun h => ⟨h, ?_⟩, And.left⟩
    obtain ⟨j, hj⟩ := hH.held c t h
    refine ⟨j, ?_, hj⟩
    rintro rfl
    exact hc (Option.some.inj (hj.symm.trans hi))

theorem Counted.detach (hH : H.Counted) {i b : Nat} (hi : H.blockOf i = some b) : (H.detach i).Counted := by
  obtain ⟨k, hk, -⟩ := bufs_of_blockOf hi
  refine ⟨hH.wf.detach hk, fun c t htag => ?_⟩
  obtain ⟨-, j, hne, hj⟩ := (hH.tagOf_detach hi c t).mp htag
  exact ⟨j, by rw [blockOf_detach, if_neg hne, hj]⟩

/-! ## A handle in another slot -/

/-- It is shared, and the handle that it was shared from goes. -/
theorem Counted.transfer_eq (hH : H.Counted) {i j b : Nat} (hne : i ≠ j) (hj : H.blockOf j = some b) :
    ∃ k, H.bufs j = some k ∧ k.blk = b ∧ H.transfer i j = (H.share i k).detach j := by
  obtain ⟨k, hk, hkb⟩ := bufs_of_blockOf hj
  obtain ⟨B, hB, -⟩ := hH.wf.live j k hk
  refine ⟨k, hk, hkb, ?_⟩
  have hpos : 1 ≤ B.refs := by
    have hcount := H.on_le_count (hH.wf.lt_slots hk) k.blk
    rw [hk, on, if_pos rfl] at hcount
    rw [hH.wf.counted _ _ hB]
    exact hcount
  have hbufs : (H.share i k).bufs j = some k := by rw [share_bufs_ne hB hne.symm, hk]
  rw [detach_eq hbufs, release, share_blks_self hB]
  simp only [share_eq hB, Nat.add_eq_right, Nat.add_sub_cancel]
  rw [if_neg (by omega)]
  simp only [transfer, setBlk, setBuf, hk, Function.update_idem]
  rw [← hB, Function.update_eq_self]

/-- What `transfer` does when there is a handle in the slot. -/
theorem Counted.transfer (hH : H.Counted) {i j b : Nat} (hne : i ≠ j) (hi : i < H.slots)
    (hnone : H.blockOf i = none) (hj : H.blockOf j = some b) :
    (H.transfer i j).Counted ∧ (∀ c, (H.transfer i j).tagOf c = H.tagOf c) := by
  obtain ⟨k, hk, rfl, heq⟩ := hH.transfer_eq hne hj
  obtain ⟨B, hB, -⟩ := hH.wf.live j k hk
  have hshare := hH.share hi hnone hk
  have hblock : (H.share i k).blockOf j = some k.blk := by rw [blockOf_share hB, if_neg hne.symm, hj]
  rw [heq]
  refine ⟨hshare.detach hblock, fun c => ?_⟩
  ext t
  rw [hshare.tagOf_detach hblock, tagOf_share hB]
  refine ⟨And.left, fun htag => ⟨htag, ?_⟩⟩
  obtain ⟨l, hl⟩ := hH.held c t htag
  by_cases hlj : l = j
  · refine ⟨i, hne, ?_⟩
    rw [blockOf_share hB, if_pos rfl, ← hl, hlj, hj]
  · refine ⟨l, hlj, ?_⟩
    rw [blockOf_share hB, if_neg, hl]
    rintro rfl
    rw [hnone] at hl
    contradiction

theorem blockOf_transfer (i j l : Nat) :
    (H.transfer i j).blockOf l = if l = j then none else if l = i then H.blockOf j else H.blockOf l := by
  unfold blockOf transfer
  simp only [setBuf, Function.update_apply]
  split_ifs <;> rfl

/-! ## Another tag -/

theorem blockOf_retag (b i : Nat) (t : π) : (H.retag b t).blockOf i = H.blockOf i := by
  unfold retag
  split <;> rfl

theorem retag_slots (b : Nat) (t : π) : (H.retag b t).slots = H.slots := by
  unfold retag
  split <;> rfl

theorem tagOf_retag {b : Nat} {t' : π} (hb : H.tagOf b = some t') (t : π) (c : Nat) :
    (H.retag b t).tagOf c = if c = b then some t else H.tagOf c := by
  obtain ⟨B, hB, -⟩ := blks_of_tagOf hb
  unfold retag tagOf
  simp only [hB, setBlk, Function.update_apply]
  split_ifs
  · rfl
  · rfl

theorem Counted.retag (hH : H.Counted) (b : Nat) (t : π) : (H.retag b t).Counted := by
  cases hB : H.blks b with
  | none =>
    have hsame : H.retag b t = H := by rw [RefHeap.retag, hB]
    rw [hsame]
    exact hH
  | some B =>
    have hretag : H.retag b t = H.setBlk b (some { B with tag := t }) := by rw [RefHeap.retag, hB]
    have hcases : ∀ {c C}, (H.retag b t).blks c = some C →
        ∃ C', H.blks c = some C' ∧ C.refs = C'.refs := by
      intro c C hC
      rw [hretag] at hC
      change Function.update H.blks b _ c = _ at hC
      by_cases hc : c = b
      · rw [hc, Function.update_self] at hC
        exact ⟨B, by rw [hc, hB], by rw [← Option.some.inj hC]⟩
      · rw [Function.update_of_ne hc] at hC
        exact ⟨C, hC, rfl⟩
    have hbufs : (H.retag b t).bufs = H.bufs := by
      rw [hretag]
      rfl
    have hnext : (H.retag b t).next = H.next := by
      rw [hretag]
      rfl
    constructor
    · constructor
      · intro c hc
        rw [hnext] at hc
        cases hC : (H.retag b t).blks c with
        | none => rfl
        | some C =>
          obtain ⟨C', hC', -⟩ := hcases hC
          rw [hH.wf.fresh c hc] at hC'
          contradiction
      · intro i hi
        rw [retag_slots] at hi
        rw [hbufs]
        exact hH.wf.absent i hi
      · intro i k p hk
        rw [hbufs] at hk
        exact hH.wf.own i k p hk
      · intro i k hk
        rw [hbufs] at hk
        obtain ⟨C, hC, -⟩ := hH.wf.live i k hk
        rw [hretag]
        change ∃ C', Function.update H.blks b _ k.blk = some C' ∧ _
        by_cases hkb : k.blk = b
        · exact ⟨_, by rw [hkb, Function.update_self], False.elim⟩
        · exact ⟨C, by rw [Function.update_of_ne hkb, hC], False.elim⟩
      · intro c C hC
        obtain ⟨C', hC', hrefs⟩ := hcases hC
        rw [hrefs, hH.wf.counted c C' hC', hretag]
        rfl
    · intro c t' htag
      obtain ⟨C, hC, -⟩ := blks_of_tagOf htag
      obtain ⟨C', hC', -⟩ := hcases hC
      obtain ⟨i, hi⟩ := hH.held c C'.tag (by rw [tagOf, hC', Option.map_some])
      exact ⟨i, by rw [blockOf_retag, hi]⟩

/-! ## Assigning a handle

An object that is assigned gives up its block first, and stays on it when the block does not go; then it takes
the block of the other object, or its handle. -/

def unshare (H : RefHeap Unit π) (i : Nat) : RefHeap Unit π :=
  match H.bufs i with
  | none => H
  | some k =>
    match H.blks k.blk with
    | none => H
    | some B => if B.refs = 1 then H.detach i else H.release k.blk

def shareFrom (H : RefHeap Unit π) (i j : Nat) : RefHeap Unit π :=
  match H.bufs j with
  | none => H.setBuf i none
  | some k => H.share i k

/-- The handles outside `P` are where they were, and the tags that are left are as they were. -/
structure Reheld (P : Nat → Prop) (H H' : RefHeap Unit π) : Prop where
  counted : H'.Counted
  tags : ∀ {b t}, H'.tagOf b = some t → H.tagOf b = some t
  others : ∀ {l}, ¬P l → H'.blockOf l = H.blockOf l
  slots : H.slots ≤ H'.slots
  next : H'.next = H.next

section

variable {P Q : Nat → Prop} {H' H'' : RefHeap Unit π} {i j : Nat}

theorem Reheld.refl (hH : H.Counted) : Reheld P H H := ⟨hH, id, fun _ => rfl, Nat.le_refl _, rfl⟩

theorem Counted.reheld_push (hH : H.Counted) : Reheld P H H.push := ⟨hH.push, id, fun _ => rfl, Nat.le_succ _, rfl⟩

theorem Reheld.trans (h : Reheld P H H') (h' : Reheld P H' H'') : Reheld P H H'' where
  counted := h'.counted
  tags ht := h.tags (h'.tags ht)
  others hl := (h'.others hl).trans (h.others hl)
  slots := Nat.le_trans h.slots h'.slots
  next := h'.next.trans h.next

theorem Reheld.mono (h : Reheld P H H') (hPQ : ∀ l, P l → Q l) : Reheld Q H H' :=
  { h with others := fun hl => h.others fun hp => hl (hPQ _ hp) }

/-- A block that a handle is on is there, with the tag that it had. -/
theorem Reheld.tag (h : Reheld P H H') {l b : Nat} {t : π} (hl : H'.blockOf l = some b) (ht : H.tagOf b = some t) :
    H'.tagOf b = some t := by
  obtain ⟨t', ht'⟩ := h.counted.tag hl
  rw [ht', ← h.tags ht', ht]

theorem setBuf_none (hi : H.bufs i = none) : H.setBuf i none = H := by
  rw [setBuf, ← hi, Function.update_eq_self]

theorem setBuf_setBuf (H : RefHeap Unit π) (i : Nat) (k l : Option Handle) :
    (H.setBuf i k).setBuf i l = H.setBuf i l := by
  simp only [setBuf, Function.update_idem]

theorem attach_setBuf (H : RefHeap Unit π) (i : Nat) (k : Option Handle) (t : π) :
    (H.setBuf i k).attach i [] t = H.attach i [] t := by
  simp only [RefHeap.attach, setBuf, setBlk, Function.update_idem]

theorem Counted.reheld_detach (hH : H.Counted) (i : Nat) : Reheld (· = i) H (H.detach i) := by
  cases hi : H.bufs i with
  | none =>
    have hsame : H.detach i = H := by rw [RefHeap.detach, hi]
    rw [hsame]
    exact Reheld.refl hH
  | some k =>
    have hb : H.blockOf i = some k.blk := by rw [blockOf, hi, Option.map_some]
    refine ⟨hH.detach hb, fun ht => ((hH.tagOf_detach hb _ _).mp ht).1, fun hl => ?_, ?_, ?_⟩
    · rw [blockOf_detach, if_neg hl]
    · rw [detach_eq hi]
      exact (release_slots _).ge
    · rw [detach_eq hi]
      exact release_next _

/-- The object goes, whether or not its block does. -/
theorem Counted.setBuf_unshare (hH : H.Counted) (i : Nat) : (H.unshare i).setBuf i none = H.detach i := by
  cases hi : H.bufs i with
  | none =>
    have hsame : H.unshare i = H := by rw [unshare, hi]
    rw [hsame, setBuf_none hi, RefHeap.detach, hi]
  | some k =>
    obtain ⟨B, hB, -⟩ := hH.wf.live i k hi
    rw [unshare, hi]
    simp only [hB]
    split_ifs
    · rw [detach_eq hi, setBuf_setBuf]
    · rw [detach_eq hi]

theorem Counted.reheld_share (hH : H.Counted) (hi : i < H.slots) (hnone : H.blockOf i = none) (j : Nat) :
    Reheld (· = i) H (H.shareFrom i j) ∧ (H.shareFrom i j).blockOf i = H.blockOf j := by
  cases hj : H.bufs j with
  | none =>
    have hsame : H.shareFrom i j = H := by rw [shareFrom, hj, setBuf_none (Option.map_eq_none_iff.mp hnone)]
    rw [hsame, hnone, blockOf, hj]
    exact ⟨Reheld.refl hH, rfl⟩
  | some k =>
    obtain ⟨B, hB, -⟩ := hH.wf.live j k hj
    have heq : H.shareFrom i j = H.share i k := by rw [shareFrom, hj]
    rw [heq]
    refine ⟨⟨hH.share hi hnone hj, fun ht => tagOf_share hB ▸ ht, fun hl => ?_, ?_, ?_⟩, ?_⟩
    · rw [blockOf_share hB, if_neg hl]
    · rw [share_eq hB]
      exact Nat.le_refl _
    · rw [share_eq hB]
      rfl
    · rw [blockOf_share hB, if_pos rfl, blockOf, hj, Option.map_some]

theorem Counted.reheld_transfer (hH : H.Counted) (hi : i < H.slots) (hnone : H.blockOf i = none) (hne : i ≠ j) :
    Reheld (fun l => l = i ∨ l = j) H (H.transfer i j) := by
  cases hj : H.blockOf j with
  | none =>
    have hbufs : H.bufs j = none := Option.map_eq_none_iff.mp hj
    have hsame : H.transfer i j = H := by
      rw [RefHeap.transfer, hbufs, setBuf_none (Option.map_eq_none_iff.mp hnone), setBuf_none hbufs]
    rw [hsame]
    exact Reheld.refl hH
  | some b =>
    obtain ⟨hcounted, htags⟩ := hH.transfer hne hi hnone hj
    refine ⟨hcounted, fun ht => (htags _) ▸ ht, fun hl => ?_, Nat.le_refl _, rfl⟩
    rw [blockOf_transfer, if_neg fun h => hl (.inr h), if_neg fun h => hl (.inl h)]

/-- A block that is given up and taken again is as it was. -/
theorem Counted.share_release (hH : H.Counted) {k : Handle} {B : Block Unit π} (hk : H.bufs i = some k)
    (hB : H.blks k.blk = some B) (hrefs : B.refs ≠ 1) : (H.release k.blk).shareFrom i i = H := by
  have hbufs : (H.release k.blk).bufs i = some k := by rw [release_bufs, hk]
  have hblks : (H.release k.blk).blks k.blk = some { B with refs := B.refs - 1 } := by
    rw [release_blks_self hB, if_neg hrefs]
  have hpos : 1 ≤ B.refs := by
    have hcount := H.on_le_count (hH.wf.lt_slots hk) k.blk
    rw [hk, on, if_pos rfl] at hcount
    rw [hH.wf.counted _ _ hB]
    exact hcount
  rw [shareFrom, hbufs]
  change (H.release k.blk).share i k = H
  rw [share_eq hblks, release, hB]
  simp only [if_neg hrefs, setBlk, setBuf, Function.update_idem, Nat.sub_add_cancel hpos]
  rw [← hB, Function.update_eq_self, ← hk, Function.update_eq_self]

/-- Taking another's block does not depend on what the object was on. -/
theorem shareFrom_setBuf (hne : i ≠ j) (hlive : ∀ k, H.bufs j = some k → ∃ B, H.blks k.blk = some B) :
    (H.setBuf i none).shareFrom i j = H.shareFrom i j := by
  have hbufs : (H.setBuf i none).bufs j = H.bufs j := Function.update_of_ne hne.symm _ _
  rw [shareFrom, shareFrom, hbufs]
  cases hj : H.bufs j with
  | none => exact setBuf_setBuf _ _ _ _
  | some k =>
    obtain ⟨B, hB⟩ := hlive k hj
    simp only [RefHeap.share, setBuf, setBlk, hB, Function.update_idem]

theorem transfer_setBuf (hne : i ≠ j) : (H.setBuf i none).transfer i j = H.transfer i j := by
  have hbufs : (H.setBuf i none).bufs j = H.bufs j := Function.update_of_ne hne.symm _ _
  rw [RefHeap.transfer, RefHeap.transfer, hbufs, setBuf_setBuf]

/-- Copy assignment, also of an object to itself: it is then left without a block when it was the last one. -/
theorem Counted.reheld_copy (hH : H.Counted) (hi : i < H.slots) (j : Nat) :
    Reheld (· = i) H ((H.unshare i).shareFrom i j) := by
  have hdetach := hH.reheld_detach i
  have hset := hH.setBuf_unshare i
  by_cases hij : i = j
  · subst hij
    cases hbuf : (H.unshare i).bufs i with
    | none =>
      rw [shareFrom, hbuf]
      change Reheld _ H ((H.unshare i).setBuf i none)
      rw [hset]
      exact hdetach
    | some k' =>
      cases hk : H.bufs i with
      | none =>
        rw [unshare, hk] at hbuf
        change H.bufs i = _ at hbuf
        rw [hk] at hbuf
        contradiction
      | some k =>
        obtain ⟨B, hB, -⟩ := hH.wf.live i k hk
        rw [unshare, hk] at hbuf ⊢
        simp only [hB] at hbuf ⊢
        split_ifs at hbuf ⊢ with hone
        · rw [detach_eq hk] at hbuf
          change Function.update (H.release k.blk).bufs i none i = some k' at hbuf
          rw [Function.update_self] at hbuf
          contradiction
        · rw [hH.share_release hk hB hone]
          exact Reheld.refl hH
  · have hnone : (H.detach i).blockOf i = none := by rw [blockOf_detach, if_pos rfl]
    have hlive : ∀ k, (H.unshare i).bufs j = some k → ∃ B, (H.unshare i).blks k.blk = some B := by
      intro k hk
      have hbufs : (H.detach i).bufs j = some k := by
        rw [← hset]
        exact (Function.update_of_ne (Ne.symm hij) _ _).trans hk
      obtain ⟨B, hB, -⟩ := hdetach.counted.wf.live j k hbufs
      rw [← hset] at hB
      exact ⟨B, hB⟩
    rw [← shareFrom_setBuf hij hlive, hset]
    exact hdetach.trans (hdetach.counted.reheld_share (Nat.lt_of_lt_of_le hi hdetach.slots) hnone j).1

/-- Move assignment, also of an object to itself. -/
theorem Counted.reheld_move (hH : H.Counted) (hi : i < H.slots) (j : Nat) :
    Reheld (fun l => l = i ∨ l = j) H ((H.unshare i).transfer i j) := by
  have hdetach := (hH.reheld_detach i).mono (Q := fun l => l = i ∨ l = j) fun _ => Or.inl
  have hset := hH.setBuf_unshare i
  by_cases hij : i = j
  · subst hij
    rw [RefHeap.transfer, setBuf_setBuf, hset]
    exact hdetach
  · have hnone : (H.detach i).blockOf i = none := by rw [blockOf_detach, if_pos rfl]
    rw [← transfer_setBuf hij, hset]
    exact hdetach.trans (hdetach.counted.reheld_transfer (Nat.lt_of_lt_of_le hi hdetach.slots) hnone hij)

end

end RefHeap
