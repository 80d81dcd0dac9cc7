import Nodeoze.Buffer.Mutators
import Nodeoze.Buffer.Spec

/-!
# What an operation can do to the heap

Every operation on a handle is a chain of the few changes listed by `Change`: give the handle up,
put it on a new block or on one that is there, move its range, store into a block it may write, and
reallocate a block it is alone on.  The representation invariant `Inv` and the isolation of the other
handles are proved once per kind of change, and the operations are only taken apart into changes.
-/

namespace Nodeoze.Buffer

open RefHeap Splice

/-- The range of the handle lies in the block, and the handle is null when the block has no memory. -/
structure Sits (h : Handle) (B : Block UInt8 Policy) : Prop where
  within : h.Within B
  null : B.mem = [] → h.data = none

/-- The handle in slot `i` sits in block `B`. -/
structure At (H : Heap) (i : Nat) (h : Handle) (B : Block UInt8 Policy) : Prop where
  slot : i < H.slots
  buf : H.bufs i = some h
  blk : H.blks h.blk = some B
  sits : Sits h B

/-- The representation invariant. -/
structure Inv (H : Heap) : Prop where
  wf : H.WF fun _ => True
  counted : ∀ b B, H.blks b = some B → 0 < B.refs
  sole : ∀ b B, H.blks b = some B → B.tag = .exclusive → B.refs = 1
  seat : ∀ i h, H.bufs i = some h → ∃ B, H.blks h.blk = some B ∧ Sits h B

/-- A change made through the handle in slot `i`. -/
inductive Change (i : Nat) : Heap → Heap → Prop
  | refl (H : Heap) : Change i H H
  | trans {H H' H'' : Heap} : Change i H H' → Change i H' H'' → Change i H H''
  | drop {H : Heap} {h : Handle} : H.bufs i = some h → Change i H (H.detach i)
  | attach {H : Heap} (bytes : List UInt8) :
    i < H.slots → H.bufs i = none → Change i H (H.attach i bytes .copyOnWrite)
  | share {H : Heap} {k : Handle} {B : Block UInt8 Policy} :
    i < H.slots → H.bufs i = none → H.blks k.blk = some B → B.tag ≠ .exclusive → Sits k B →
      Change i H (H.share i k)
  | rebind {H : Heap} {h h' : Handle} {B : Block UInt8 Policy} :
    At H i h B → h'.blk = h.blk → Sits h' B → Change i H (H.setBuf i (some h'))
  | store {H : Heap} {h : Handle} {B : Block UInt8 Policy} (mem : List UInt8) :
    At H i h B → Writable B → mem.length = B.mem.length →
      Change i H (H.setBlk h.blk (some { B with mem := mem }))
  | grow {H : Heap} {h : Handle} {B : Block UInt8 Policy} {pad : List UInt8} {n : Nat} :
    At H i h B → B.refs = 1 → n = B.mem.length + pad.length →
      Change i H ((H.grow h.blk pad).setBuf i
        (some ⟨h.blk, Block.data { B with mem := B.mem ++ pad, gen := B.gen + 1 } h.blk, n⟩))

/-! ## The invariant, change by change -/

section Invariant

variable {H H' : Heap} {i : Nat} {h h' k : Handle} {B B' : Block UInt8 Policy}

theorem Sits.congr (s : Sits h B) (hlen : B'.mem.length = B.mem.length) (hgen : B'.gen = B.gen) :
    Sits h B' := by
  have hnil : B'.mem = [] ↔ B.mem = [] := by
    rw [← List.length_eq_zero_iff, hlen, List.length_eq_zero_iff]
  refine ⟨?_, fun hm => s.null (hnil.mp hm)⟩
  have hin := s.within
  unfold Handle.Within at hin ⊢
  cases hd : h.data with
  | none => simpa only [hd, hnil] using hin
  | some p => simpa only [hd, hgen, hlen] using hin

theorem Sits.own (s : Sits h B) {p : Ptr} (hp : h.data = some p) : p.blk = h.blk := by
  have hin := s.within
  simp only [Handle.Within, hp] at hin
  exact hin.1

/-- A handle that is put at the start of a block sits in it. -/
theorem sits_data (b : Nat) (B : Block UInt8 Policy) : Sits ⟨b, B.data b, B.mem.length⟩ B := by
  refine ⟨data_within _ _ _ rfl, ?_⟩
  intro hm
  simp [Block.data, hm]

theorem Inv.at (inv : Inv H) (hi : H.bufs i = some h) : ∃ B, At H i h B := by
  obtain ⟨B, hB, hsits⟩ := inv.seat i h hi
  exact ⟨B, inv.wf.lt_slots hi, hi, hB, hsits⟩

theorem Inv.empty : Inv RefHeap.empty where
  wf := WF.empty
  counted := fun _ _ hb => nomatch hb
  sole := fun _ _ hb => nomatch hb
  seat := fun _ _ hi => nomatch hi

/-- The other handles keep their seats when no block they are on changes its length or moves. -/
theorem seat_of (inv : Inv H)
    (hown : ∀ h, H'.bufs i = some h → ∃ B, H'.blks h.blk = some B ∧ Sits h B)
    (hbufs : ∀ j, j ≠ i → H'.bufs j = H.bufs j)
    (hblks : ∀ j k B, j ≠ i → H.bufs j = some k → H.blks k.blk = some B →
      ∃ B', H'.blks k.blk = some B' ∧ B'.mem.length = B.mem.length ∧ B'.gen = B.gen) :
    ∀ j k, H'.bufs j = some k → ∃ B, H'.blks k.blk = some B ∧ Sits k B := by
  intro j k hk
  by_cases hj : j = i
  · subst hj
    exact hown k hk
  · rw [hbufs j hj] at hk
    obtain ⟨B, hB, hsits⟩ := inv.seat j k hk
    obtain ⟨B', hB', hlen, hgen⟩ := hblks j k B hj hk hB
    exact ⟨B', hB', hsits.congr hlen hgen⟩

theorem Inv.push (inv : Inv H) : Inv H.push :=
  ⟨inv.wf.push, inv.counted, inv.sole, inv.seat⟩

theorem Inv.attach (inv : Inv H) (hslot : i < H.slots) (hi : H.bufs i = none) (bytes : List UInt8)
    (pol : Policy) : Inv (H.attach i bytes pol) := by
  have hcases : ∀ b B, (H.attach i bytes pol).blks b = some B →
      B = ⟨bytes, 0, 1, pol⟩ ∨ H.blks b = some B := by
    intro b B hB
    by_cases hb : b = H.next
    · subst hb
      rw [attach_blks] at hB
      exact Or.inl (Option.some.inj hB).symm
    · rw [attach_blks_ne bytes pol hb] at hB
      exact Or.inr hB
  refine ⟨inv.wf.attach hslot hi bytes pol, ?_, ?_, ?_⟩
  · intro b B hB
    rcases hcases b B hB with rfl | hold
    · exact Nat.one_pos
    · exact inv.counted b B hold
  · intro b B hB htag
    rcases hcases b B hB with rfl | hold
    · rfl
    · exact inv.sole b B hold htag
  · refine seat_of inv (i := i) ?_ (fun j hj => attach_bufs_ne bytes pol hj) ?_
    · intro h hh
      rw [attach_bufs] at hh
      obtain rfl := Option.some.inj hh
      exact ⟨_, attach_blks bytes pol, sits_data H.next ⟨bytes, 0, 1, pol⟩⟩
    · intro j k B _ _ hB
      have hlt := inv.wf.lt_next hB
      exact ⟨B, by rw [attach_blks_ne bytes pol (by omega), hB], rfl, rfl⟩

theorem detach_bufs_ne (hi : H.bufs i = some h) {j : Nat} (hj : j ≠ i) :
    (H.detach i).bufs j = H.bufs j := by
  rw [detach_eq hi]
  change Function.update (H.release h.blk).bufs i none j = H.bufs j
  rw [Function.update_of_ne hj, release_bufs]

theorem detach_bufs_self (hi : H.bufs i = some h) : (H.detach i).bufs i = none := by
  rw [detach_eq hi]
  simp [setBuf]

theorem detach_slots (hi : H.bufs i = some h) : (H.detach i).slots = H.slots := by
  rw [detach_eq hi]
  exact release_slots _

/-- A block left after a handle is given up is the block before, with one reference less if it was the
handle's. -/
theorem detach_blks (hi : H.bufs i = some h) {b : Nat} (hB' : (H.detach i).blks b = some B') :
    ∃ B, H.blks b = some B ∧ B'.tag = B.tag ∧
      (B'.refs = B.refs ∨ B.refs ≠ 1 ∧ B'.refs = B.refs - 1) := by
  have hrel : (H.release h.blk).blks b = some B' := by
    rw [detach_eq hi] at hB'
    exact hB'
  by_cases hb : b = h.blk
  · subst hb
    cases hB : H.blks h.blk with
    | none =>
      simp only [release, hB] at hrel
      cases hrel
    | some B =>
      rw [release_blks_self hB] at hrel
      split_ifs at hrel with hone
      obtain rfl := Option.some.inj hrel
      exact ⟨B, rfl, rfl, Or.inr ⟨hone, rfl⟩⟩
  · rw [release_blks_ne hb] at hrel
    exact ⟨B', hrel, rfl, Or.inl rfl⟩

theorem Inv.drop (inv : Inv H) (hi : H.bufs i = some h) : Inv (H.detach i) := by
  refine ⟨inv.wf.detach hi, ?_, ?_, ?_⟩
  · intro b B' hB'
    obtain ⟨B, hB, -, hrefs⟩ := detach_blks hi hB'
    have hpos := inv.counted b B hB
    omega
  · intro b B' hB' htag
    obtain ⟨B, hB, ht, hrefs⟩ := detach_blks hi hB'
    have hone := inv.sole b B hB (ht ▸ htag)
    omega
  · refine seat_of inv (i := i) ?_ (fun j hj => detach_bufs_ne hi hj) ?_
    · intro h' hh'
      rw [detach_bufs_self hi] at hh'
      cases hh'
    · intro j k B hj hk hB
      obtain ⟨B', hB', hm, hg, -⟩ := inv.wf.release_blks hi hj hk hB
      refine ⟨B', ?_, by rw [hm], hg⟩
      rw [detach_eq hi]
      exact hB'

theorem Inv.share (inv : Inv H) (hslot : i < H.slots) (hi : H.bufs i = none)
    (hB : H.blks k.blk = some B) (htag : B.tag ≠ .exclusive) (hsits : Sits k B) :
    Inv (H.share i k) := by
  have hcases : ∀ b C', (H.share i k).blks b = some C' →
      C' = { B with refs := B.refs + 1 } ∨ H.blks b = some C' := by
    intro b C' hC'
    by_cases hb : b = k.blk
    · subst hb
      rw [share_blks_self hB] at hC'
      exact Or.inl (Option.some.inj hC').symm
    · rw [share_blks_ne hB hb] at hC'
      exact Or.inr hC'
  refine ⟨inv.wf.share hslot hi hB (fun p hp => hsits.own hp) fun _ => hsits.within, ?_, ?_, ?_⟩
  · intro b C' hC'
    rcases hcases b C' hC' with rfl | hold
    · exact Nat.succ_pos _
    · exact inv.counted b C' hold
  · intro b C' hC' hexcl
    rcases hcases b C' hC' with rfl | hold
    · exact absurd hexcl htag
    · exact inv.sole b C' hold hexcl
  · refine seat_of inv (i := i) ?_ (fun j hj => share_bufs_ne hB hj) ?_
    · intro h hh
      rw [share_bufs hB] at hh
      obtain rfl := Option.some.inj hh
      exact ⟨_, share_blks_self hB, hsits.congr rfl rfl⟩
    · intro j l C _ _ hC
      obtain ⟨C', hC', hm, hg, -⟩ := share_blks (i := i) hB hC
      exact ⟨C', hC', by rw [hm], hg⟩

theorem setBuf_bufs_ne (H : Heap) (x : Option Handle) {j : Nat} (hj : j ≠ i) :
    (H.setBuf i x).bufs j = H.bufs j := by
  simp [setBuf, hj]

theorem setBuf_bufs_self (H : Heap) (x : Option Handle) : (H.setBuf i x).bufs i = x := by
  simp [setBuf]

theorem setBlk_blks_self (H : Heap) (b : Nat) (x : Option (Block UInt8 Policy)) :
    (H.setBlk b x).blks b = x := by
  simp [setBlk]

theorem setBlk_blks_ne (H : Heap) (x : Option (Block UInt8 Policy)) {b c : Nat} (hc : c ≠ b) :
    (H.setBlk b x).blks c = H.blks c := by
  simp [setBlk, hc]

/-- The handle's own block and range change, the count does not.  With other handles on it the block
keeps its length and its place. -/
theorem Inv.update (inv : Inv H) (a : At H i h B)
    (wf : ((H.setBlk h.blk (some B')).setBuf i (some h')).WF fun _ => True) (hblk : h'.blk = h.blk)
    (hrefs : B'.refs = B.refs) (htag : B'.tag = B.tag ∨ B.refs = 1)
    (hkeep : B.refs = 1 ∨ B'.mem.length = B.mem.length ∧ B'.gen = B.gen) (hsits : Sits h' B') :
    Inv ((H.setBlk h.blk (some B')).setBuf i (some h')) := by
  have hcases : ∀ b C, (H.setBlk h.blk (some B')).blks b = some C → C = B' ∨ H.blks b = some C := by
    intro b C hC
    by_cases hb : b = h.blk
    · subst hb
      rw [setBlk_blks_self] at hC
      exact Or.inl (Option.some.inj hC).symm
    · rw [setBlk_blks_ne _ _ hb] at hC
      exact Or.inr hC
  refine ⟨wf, ?_, ?_, ?_⟩
  · intro b C hC
    rcases hcases b C hC with rfl | hold
    · rw [hrefs]
      exact inv.counted _ _ a.blk
    · exact inv.counted b C hold
  · intro b C hC hexcl
    rcases hcases b C hC with rfl | hold
    · rw [hrefs]
      rcases htag with ht | hone
      · exact inv.sole _ _ a.blk (ht ▸ hexcl)
      · exact hone
    · exact inv.sole b C hold hexcl
  · refine seat_of inv (i := i) ?_ (fun j hj => setBuf_bufs_ne _ _ hj) ?_
    · intro g hg
      rw [setBuf_bufs_self] at hg
      obtain rfl := Option.some.inj hg
      exact ⟨B', by rw [hblk]; exact setBlk_blks_self _ _ _, hsits⟩
    · intro j k C hj hk hC
      by_cases hkb : k.blk = h.blk
      · rcases hkeep with hone | ⟨hlen, hgen⟩
        · exact absurd hkb (inv.wf.sole a.buf a.blk hone hj hk)
        · rw [hkb, a.blk] at hC
          obtain rfl := Option.some.inj hC
          exact ⟨B', by rw [hkb]; exact setBlk_blks_self _ _ _, hlen, hgen⟩
      · exact ⟨C, by rw [← hC]; exact setBlk_blks_ne _ _ hkb, rfl, rfl⟩

theorem Inv.rebind (inv : Inv H) (a : At H i h B) (hblk : h'.blk = h.blk) (hsits : Sits h' B) :
    Inv (H.setBuf i (some h')) := by
  have hself : H.setBlk h.blk (some B) = H := setBlk_self a.blk
  have wf : ((H.setBlk h.blk (some B)).setBuf i (some h')).WF fun _ => True := by
    rw [hself]
    exact inv.wf.rebind a.buf hblk a.blk (fun p hp => hsits.own hp) fun _ => hsits.within
  have hupd := inv.update a wf hblk rfl (Or.inl rfl) (Or.inr ⟨rfl, rfl⟩) hsits
  rwa [hself] at hupd

/-- Every handle on the block of `i` sits in a block of the same length in the same place. -/
theorem Inv.sits_congr (inv : Inv H) (a : At H i h B) {j : Nat} (hk : H.bufs j = some k)
    (hkb : k.blk = h.blk) (hlen : B'.mem.length = B.mem.length) (hgen : B'.gen = B.gen) :
    Sits k B' := by
  obtain ⟨C, hC, hkin⟩ := inv.seat j k hk
  rw [hkb, a.blk] at hC
  obtain rfl := Option.some.inj hC
  exact hkin.congr hlen hgen

theorem Inv.store (inv : Inv H) (a : At H i h B) {mem : List UInt8}
    (hlen : mem.length = B.mem.length) :
    Inv (H.setBlk h.blk (some { B with mem := mem })) := by
  have hsits : Sits h { B with mem := mem } := a.sits.congr hlen rfl
  have hself : (H.setBlk h.blk (some { B with mem := mem })).setBuf i (some h) =
      H.setBlk h.blk (some { B with mem := mem }) := setBuf_self (H := H.setBlk _ _) a.buf
  have wf : ((H.setBlk h.blk (some { B with mem := mem })).setBuf i (some h)).WF fun _ => True := by
    refine inv.wf.update a.buf a.blk rfl rfl rfl (fun p hp => hsits.own hp)
      (fun _ => hsits.within) ?_
    intro _ j k _ hk hkb
    have hkept : Sits k { B with mem := mem } := inv.sits_congr a hk hkb hlen rfl
    exact hkept.within
  have hupd := inv.update a wf rfl rfl (Or.inl rfl) (Or.inr ⟨hlen, rfl⟩) hsits
  rwa [hself] at hupd

/-- The only handle on a block may give it another policy. -/
theorem Inv.retag (inv : Inv H) (a : At H i h B) (hone : B.refs = 1) (pol : Policy) :
    Inv (H.setBlk h.blk (some { B with tag := pol })) := by
  have hself : (H.setBlk h.blk (some { B with tag := pol })).setBuf i (some h) =
      H.setBlk h.blk (some { B with tag := pol }) := setBuf_self (H := H.setBlk _ _) a.buf
  have wf : ((H.setBlk h.blk (some { B with tag := pol })).setBuf i (some h)).WF fun _ => True := by
    rw [hself]
    refine ⟨?_, inv.wf.absent, inv.wf.own, ?_, ?_⟩
    · intro b hb
      change H.next ≤ b at hb
      have hlt := inv.wf.lt_next a.blk
      rw [setBlk_blks_ne _ _ (show b ≠ h.blk by omega)]
      exact inv.wf.fresh b hb
    · intro j k hk
      by_cases hkb : k.blk = h.blk
      · have hkept : Sits k { B with tag := pol } := inv.sits_congr a hk hkb rfl rfl
        exact ⟨_, by rw [hkb]; exact setBlk_blks_self _ _ _, fun _ => hkept.within⟩
      · rw [setBlk_blks_ne _ _ hkb]
        exact inv.wf.live j k hk
    · intro b C hC
      rw [count_setBlk]
      by_cases hb : b = h.blk
      · subst hb
        rw [setBlk_blks_self] at hC
        obtain rfl := Option.some.inj hC
        have hrefs := inv.wf.counted _ _ a.blk
        exact hrefs
      · rw [setBlk_blks_ne _ _ hb] at hC
        exact inv.wf.counted b C hC
  have hupd := inv.update a wf rfl rfl (Or.inr hone) (Or.inl hone) (a.sits.congr rfl rfl)
  rwa [hself] at hupd

theorem Inv.bump (inv : Inv H) : Inv { H with next := H.next + 1 } :=
  ⟨inv.wf.bump, inv.counted, inv.sole, inv.seat⟩

theorem Inv.grow (inv : Inv H) (a : At H i h B) (hone : B.refs = 1) {pad : List UInt8} {n : Nat}
    (hn : n = B.mem.length + pad.length) :
    Inv ((H.grow h.blk pad).setBuf i
      (some ⟨h.blk, Block.data { B with mem := B.mem ++ pad, gen := B.gen + 1 } h.blk, n⟩)) := by
  let B' : Block UInt8 Policy := { B with mem := B.mem ++ pad, gen := B.gen + 1 }
  have hsits : Sits ⟨h.blk, B'.data h.blk, n⟩ B' := by
    rw [show n = B'.mem.length by simp [B', hn]]
    exact sits_data _ _
  have wf : ((H.setBlk h.blk (some B')).setBuf i
      (some ⟨h.blk, B'.data h.blk, n⟩)).WF fun _ => True := by
    refine inv.wf.update a.buf a.blk rfl rfl rfl (fun p hp => hsits.own hp)
      (fun _ => hsits.within) ?_
    intro _ j k hj hk hkb
    exact absurd hkb (inv.wf.sole a.buf a.blk hone hj hk)
  have hupd := (inv.update a wf rfl rfl (Or.inl rfl) (Or.inl hone) hsits).bump
  have heq : (H.grow h.blk pad).setBuf i (some ⟨h.blk, B'.data h.blk, n⟩) =
      { (H.setBlk h.blk (some B')).setBuf i (some ⟨h.blk, B'.data h.blk, n⟩) with
        next := H.next + 1 } := by
    simp only [RefHeap.grow, a.blk]
    rfl
  rw [heq]
  exact hupd

/-- A chain of changes keeps the representation invariant. -/
theorem Change.inv (c : Change i H H') (inv : Inv H) : Inv H' := by
  induction c with
  | refl => exact inv
  | trans _ _ ih ih' => exact ih' (ih inv)
  | drop hi => exact inv.drop hi
  | attach bytes hslot hi => exact inv.attach hslot hi bytes _
  | share hslot hi hB htag hsits => exact inv.share hslot hi hB htag hsits
  | rebind a hblk hsits => exact inv.rebind a hblk hsits
  | store mem a _ hlen => exact inv.store a hlen
  | grow a hone hn => exact inv.grow a hone hn

/-! ## The other handles -/

/-- No block is changed in place for everybody. -/
def Guarded (H : Heap) : Prop := ∀ b B, H.blks b = some B → guarded B.tag

theorem Guarded.attach (g : Guarded H) (bytes : List UInt8) {pol : Policy} (hpol : guarded pol) :
    Guarded (H.attach i bytes pol) := by
  intro b B hB
  by_cases hb : b = H.next
  · subst hb
    rw [attach_blks] at hB
    obtain rfl := Option.some.inj hB
    exact hpol
  · rw [attach_blks_ne bytes pol hb] at hB
    exact g b B hB

theorem Guarded.setBlk (g : Guarded H) {b : Nat} (hpol : guarded B'.tag) :
    Guarded (H.setBlk b (some B')) := by
  intro c C hC
  by_cases hc : c = b
  · subst hc
    rw [setBlk_blks_self] at hC
    obtain rfl := Option.some.inj hC
    exact hpol
  · rw [setBlk_blks_ne _ _ hc] at hC
    exact g c C hC

theorem frame_push (i : Nat) (H : Heap) : Frame i H H.push :=
  ⟨Nat.le_succ _, fun _ _ => rfl, fun _ _ => rfl⟩

/-- Where no block is changed in place for everybody, a change is seen through its own handle only. -/
theorem Change.frame (c : Change i H H') (inv : Inv H) (g : Guarded H) :
    Frame i H H' ∧ Guarded H' := by
  induction c with
  | refl H => exact ⟨Frame.refl i H, g⟩
  | trans c _ ih ih' =>
    obtain ⟨hf, g'⟩ := ih inv g
    obtain ⟨hf', g''⟩ := ih' (c.inv inv) g'
    exact ⟨hf.trans hf', g''⟩
  | drop hi =>
    refine ⟨inv.wf.frame_detach hi, ?_⟩
    intro b B' hB'
    obtain ⟨B, hB, htag, -⟩ := detach_blks hi hB'
    rw [htag]
    exact g b B hB
  | attach bytes _ _ =>
    exact ⟨inv.wf.frame_attach bytes _, g.attach bytes Policy.noConfusion⟩
  | share _ _ hB _ _ =>
    refine ⟨inv.wf.frame_share hB, ?_⟩
    rw [share_eq hB]
    have hpol := g _ _ hB
    exact g.setBlk hpol
  | rebind => exact ⟨frame_setBuf _, g⟩
  | store mem a hw _ =>
    have hpol := g _ _ a.blk
    exact ⟨inv.wf.frame_setBlk a.buf a.blk (hw.unique hpol) _, g.setBlk hpol⟩
  | grow a hone hn =>
    have hpol := g _ _ a.blk
    obtain ⟨-, -, -, hframe⟩ := inv.wf.grow a.buf a.blk (Or.inl hone) _ hn
    refine ⟨hframe hone, ?_⟩
    simp only [RefHeap.grow, a.blk]
    exact g.setBlk hpol

end Invariant

end Nodeoze.Buffer
