import Nodeoze.Buffer.Basic

/-!
# What the buffer operations do

`Owned H i h B c` says that slot `i` of a well-formed heap holds handle `h`, that `h` is on block
`B` with its range inside it, and that it shows the bytes `c`.  Each operation has one lemma: it is
defined, the handle shows what it should, and the other handles are framed.
-/

namespace Nodeoze.Buffer

open RefHeap Splice

/-- Slot `i` holds handle `h`, on block `B`, and shows `c`. -/
structure Owned (H : Heap) (i : Nat) (h : Handle) (B : Block UInt8 Policy) (c : List UInt8) :
    Prop where
  wf : H.WF guarded
  buf : H.bufs i = some h
  blk : H.blks h.blk = some B
  within : h.Within B
  content : H.content i = some c

/-- The range of the handle begins where its block does. -/
def AtStart (h : Handle) (B : Block UInt8 Policy) : Prop := h.data = B.data h.blk

/-- The handle is alone on its block, or the block is changed in place for everybody. -/
def Writable (B : Block UInt8 Policy) : Prop := B.refs = 1 ∨ B.tag = .noCopyOnWrite

instance (B : Block UInt8 Policy) : Decidable (Writable B) := inferInstanceAs (Decidable (_ ∨ _))

section

variable (junk : Nat → Nat → UInt8) {H : Heap} {i : Nat} {h : Handle} {B : Block UInt8 Policy}
  {c : List UInt8}

theorem Owned.read (o : Owned H i h B c) : H.read h.data h.size = some c := by
  have := o.content
  unfold RefHeap.content at this
  rwa [o.buf] at this

theorem Owned.length (o : Owned H i h B c) : c.length = h.size := by
  obtain ⟨off, hread, hnull, hptr⟩ := read_within o.blk o.within
  have hc := o.read.symm.trans hread
  obtain rfl := Option.some.inj hc
  rw [List.length_take, List.length_drop]
  cases hd : h.data with
  | none =>
    have := hnull hd
    omega
  | some p =>
    have := (hptr p hd).2
    omega

theorem Owned.size_le (o : Owned H i h B c) : h.size ≤ B.mem.length := by
  have hin := o.within
  unfold Handle.Within at hin
  split at hin
  · omega
  · omega

theorem Owned.content_atStart (o : Owned H i h B c) (hs : AtStart h B) : c = B.mem.take h.size := by
  have hread := o.read
  rw [hs, read_data o.blk o.size_le] at hread
  exact (Option.some.inj hread).symm

/-- A part of what the handle shows. -/
theorem Owned.read_at (o : Owned H i h B c) {k n : Nat} (hk : k + n ≤ h.size) :
    H.read (h.at k) n = some ((c.drop k).take n) := by
  obtain ⟨off, hread, hnull, hptr⟩ := read_within o.blk o.within
  obtain rfl := Option.some.inj (o.read.symm.trans hread)
  by_cases hn : n = 0
  · simp [RefHeap.read, hn]
  · cases hd : h.data with
    | none =>
      have := hnull hd
      omega
    | some p =>
      obtain ⟨rfl, hle⟩ := hptr p hd
      have hle' : off + k + n ≤ B.mem.length := by omega
      simp only [RefHeap.read, hn, if_false, Handle.at, hd, Option.map_some, Ptr.add,
        Option.bind_eq_bind, Option.bind_some, o.blk, hle', and_self, if_true]
      rw [List.drop_take, List.take_take, List.drop_drop, min_eq_left (by omega)]

theorem isUnique_eq (hbuf : H.bufs i = some h) (hblk : H.blks h.blk = some B) :
    isUnique H i = some (decide (B.refs = 1)) := by
  simp [isUnique, hbuf, hblk]

theorem isPolicy_eq (hbuf : H.bufs i = some h) (hblk : H.blks h.blk = some B) (pol : Policy) :
    isPolicy H i pol = some (decide (B.tag = pol)) := by
  simp [isPolicy, hbuf, hblk]

theorem isWritable_eq (hbuf : H.bufs i = some h) (hblk : H.blks h.blk = some B) :
    isWritable H i = some (decide (Writable B)) := by
  have hunique := isUnique_eq hbuf hblk
  have hpolicy := isPolicy_eq hbuf hblk .noCopyOnWrite
  by_cases hu : B.refs = 1
  · simp [isWritable, hunique, hpolicy, Writable, hu]
  · by_cases hp : B.tag = .noCopyOnWrite
    · simp [isWritable, hunique, hpolicy, Writable, hp]
    · simp [isWritable, hunique, hpolicy, Writable, hu, hp]

theorem Owned.isUnique (o : Owned H i h B c) : isUnique H i = some (decide (B.refs = 1)) :=
  isUnique_eq o.buf o.blk

theorem Owned.isPolicy (o : Owned H i h B c) (pol : Policy) :
    isPolicy H i pol = some (decide (B.tag = pol)) := isPolicy_eq o.buf o.blk pol

theorem Owned.isWritable (o : Owned H i h B c) : isWritable H i = some (decide (Writable B)) :=
  isWritable_eq o.buf o.blk

/-- A framed step keeps what another slot holds, as long as its block is left alone. -/
theorem Owned.of_frame (o : Owned H i h B c) {H' : Heap} {j : Nat} (hj : i ≠ j)
    (wf : H'.WF guarded) (hf : Frame j H H') {B' : Block UInt8 Policy}
    (hB' : H'.blks h.blk = some B') (hm : B'.mem = B.mem) (hg : B'.gen = B.gen) :
    Owned H' i h B' c where
  wf := wf
  buf := by rw [hf.bufs i hj, o.buf]
  blk := hB'
  within := by
    have := o.within
    unfold Handle.Within at this ⊢
    rw [hm, hg]
    exact this
  content := by rw [hf.content i hj, o.content]

/-! ### Replacing the block of a handle -/

/-- The handle is put on a block of its own that holds `bytes`. -/
theorem Owned.replace (o : Owned H i h B c) (bytes : List UInt8) (pol : Policy) :
    ∃ h' B', Owned ((unshare H i).attach i bytes pol) i h' B' bytes ∧
      Frame i H ((unshare H i).attach i bytes pol) ∧ AtStart h' B' ∧ B'.refs = 1 ∧ B'.tag = pol ∧
      B'.mem = bytes := by
  have hslot := o.wf.lt_slots o.buf
  have wfd := o.wf.detach o.buf
  have hslots : (H.detach i).slots = H.slots := by
    rw [detach_eq o.buf]
    exact release_slots _
  have hnone : (H.detach i).bufs i = none := by
    rw [detach_eq o.buf]
    simp [setBuf]
  refine ⟨_, _, ⟨wfd.attach (by rw [hslots]; exact hslot) hnone bytes pol, attach_bufs bytes pol,
    attach_blks bytes pol, data_within _ _ _ rfl, content_attach bytes pol⟩,
    (o.wf.frame_detach o.buf).trans (wfd.frame_attach bytes pol), rfl, rfl, rfl, rfl⟩

theorem Owned.clone (o : Owned H i h B c) :
    ∃ H' h' B', clone H i = some H' ∧ Owned H' i h' B' c ∧ Frame i H H' ∧ AtStart h' B' ∧
      B'.refs = 1 ∧ B'.tag = .copyOnWrite := by
  obtain ⟨h', B', o', hf, hs, hr, ht, -⟩ := o.replace c .copyOnWrite
  exact ⟨_, h', B', by simp [Buffer.clone, o.content], o', hf, hs, hr, ht⟩

theorem Owned.mutableData (o : Owned H i h B c) :
    ∃ H' h' B', mutableData H i = some H' ∧ Owned H' i h' B' c ∧ Frame i H H' ∧ Writable B' ∧
      (AtStart h B → AtStart h' B') ∧ (guarded B.tag → guarded B'.tag) := by
  by_cases hw : Writable B
  · exact ⟨H, h, B, by simp [Buffer.mutableData, o.isWritable, hw], o, Frame.refl _ _, hw, id, id⟩
  · obtain ⟨H', h', B', hc, o', hf, hs, hr, ht⟩ := o.clone
    have hne : B.refs ≠ 1 := fun h1 => hw (Or.inl h1)
    refine ⟨H', h', B', ?_, o', hf, Or.inl hr, fun _ => hs, fun _ => ?_⟩
    · simp [Buffer.mutableData, o.isWritable, hw, Buffer.forceUnique, o.isUnique, hne, hc]
    · rw [ht]
      exact Policy.noConfusion

/-- `force_unique( nbytes )` keeps the first `nbytes` bytes of a handle at the start of its block. -/
theorem Owned.forceUniqueN (o : Owned H i h B c) {n : Nat} (hn : n ≤ h.size) :
    ∃ H' h' B' c', forceUniqueN junk H i n = some H' ∧ Owned H' i h' B' c' ∧ Frame i H H' ∧
      B'.refs = 1 ∧ c'.length = c.length ∧ (AtStart h B → AtStart h' B' ∧ c'.take n = c.take n) ∧
      (guarded B.tag → guarded B'.tag) := by
  by_cases hu : B.refs = 1
  · exact ⟨H, h, B, c, by simp [Buffer.forceUniqueN, o.isUnique, hu], o, Frame.refl _ _, hu, rfl,
      fun hs => ⟨hs, rfl⟩, id⟩
  · have hmem := read_data o.blk (hn.trans o.size_le)
    obtain ⟨h', B', o', hf, hs, hr, ht, -⟩ :=
      o.replace (splice (malloc junk H.next h.size) 0 (B.mem.take n)) .copyOnWrite
    have hlen : (splice (malloc junk H.next h.size) 0 (B.mem.take n)).length = h.size := by
      rw [length_splice _ _ _ (by rw [length_malloc, List.length_take]; omega), length_malloc]
    refine ⟨_, h', B', _, ?_, o', hf, hr, by rw [hlen, o.length], fun hst => ⟨hs, ?_⟩, fun _ => ?_⟩
    · simp [Buffer.forceUniqueN, o.isUnique, hu, o.buf, o.blk, hmem, hn]
    · have hc := o.content_atStart hst
      have hle : n ≤ B.mem.length := hn.trans o.size_le
      rw [hc, List.take_take, min_eq_left hn, splice, List.take_zero, List.nil_append,
        List.take_append_of_le_length (by rw [List.length_take]; omega), List.take_take,
        min_self]
    · rw [ht]
      exact Policy.noConfusion

/-! ### Changing the size -/

theorem Writable.free {B : Block UInt8 Policy} (hw : Writable B) : B.refs = 1 ∨ ¬ guarded B.tag := by
  rcases hw with hu | hp
  · exact Or.inl hu
  · exact Or.inr fun hg => hg hp

/-- A writable block under a policy that promises the range is the handle's own. -/
theorem Writable.unique {B : Block UInt8 Policy} (hw : Writable B) (hg : guarded B.tag) :
    B.refs = 1 := by
  rcases hw with hu | hp
  · exact hu
  · exact absurd hp hg

theorem data_blk {B : Block UInt8 Policy} {b : Nat} {p : Ptr} (hp : B.data b = some p) :
    p.blk = b := by
  unfold Block.data at hp
  split_ifs at hp
  exact (Option.some.inj hp) ▸ rfl

theorem within_of_le {h : Handle} {B : Block UInt8 Policy} (hin : h.Within B) {n : Nat}
    (hn : n ≤ h.size) : Handle.Within { h with size := n } B := by
  unfold Handle.Within at hin ⊢
  split at hin
  · rename_i hd
    simp only [hd]
    exact ⟨by omega, hin.2⟩
  · rename_i p hd
    simp only [hd]
    exact ⟨hin.1, hin.2.1, by omega⟩

theorem Owned.normalize (o : Owned H i h B c) (hw : Writable B) :
    ∃ H' h' B', normalize H i = some H' ∧ Owned H' i h' B' c ∧ h'.size = h.size ∧
      (∀ p, h'.data = some p → p.off = 0) ∧ B'.refs = B.refs ∧ B'.tag = B.tag ∧
      (guarded B.tag → Frame i H H') ∧ (AtStart h B → AtStart h' B') := by
  obtain ⟨off, hread, hnull, hptr⟩ := read_within o.blk o.within
  cases hd : h.data with
  | none =>
    refine ⟨H, h, B, ?_, o, rfl, fun p hp => ?_, rfl, rfl, fun _ => Frame.refl _ _, id⟩
    · simp [Buffer.normalize, o.buf, o.blk, hd]
    · rw [hd] at hp
      cases hp
  | some p =>
    obtain ⟨rfl, hle⟩ := hptr p hd
    by_cases hoff : 0 < off
    · have hne : B.mem ≠ [] := by
        intro hnil
        rw [hnil, List.length_nil] at hle
        omega
      have hlen : 0 + c.length ≤ B.mem.length := by
        rw [o.length]
        omega
      let B' : Block UInt8 Policy := { B with mem := splice B.mem 0 c }
      let h' : Handle := { h with data := B.data h.blk }
      have hmem : B'.mem.length = B.mem.length := length_splice _ _ _ hlen
      have hwrite : H.write (B.data h.blk) c = some (H.setBlk h.blk (some B')) := by
        by_cases hc : c = []
        · simp [RefHeap.write, hc, setBlk_self o.blk, B']
        · have hle' : c.length ≤ B.mem.length := by omega
          simp [RefHeap.write, hc, Block.data, hne, o.blk, hle', B']
      have hin : h'.Within B' := by
        simp only [Handle.Within, h', Block.data, hne, if_false]
        exact ⟨trivial, rfl, by rw [hmem]; omega⟩
      have hdata : B'.data h.blk = B.data h.blk := by
        have : B'.mem ≠ [] := by
          intro hnil
          rw [hnil, List.length_nil] at hmem
          exact hne (List.eq_nil_of_length_eq_zero hmem.symm)
        simp [Block.data, this, hne, B']
      refine ⟨(H.setBlk h.blk (some B')).setBuf i (some h'), h', B', ?_, ?_, rfl, ?_, rfl, rfl, ?_, ?_⟩
      · simp [Buffer.normalize, o.buf, o.blk, hd, hoff, o.content, hwrite, h']
      · refine ⟨?_, by simp [setBuf], by simp [setBuf, setBlk, h'], hin, ?_⟩
        · exact o.wf.update o.buf o.blk rfl rfl rfl (fun p hp => data_blk hp) (fun _ => hin)
            fun hgd j k hj hk hkb => absurd hkb (o.wf.sole o.buf o.blk (hw.unique hgd) hj hk)
        · have hblk : ((H.setBlk h.blk (some B')).setBuf i (some h')).blks h.blk = some B' := by
            simp [setBuf, setBlk]
          have hrd := read_data hblk (n := h.size) (by rw [hmem]; omega)
          rw [hdata, ← o.length] at hrd
          unfold RefHeap.content
          simp only [setBuf, Function.update_self, Option.bind_eq_bind, Option.bind_some]
          change RefHeap.read _ (B.data h.blk) h.size = _
          rw [← o.length]
          exact hrd.trans (congrArg some (splice_zero_take _ _))
      · intro p hp
        simp only [h', Block.data, hne, if_false] at hp
        exact (Option.some.inj hp) ▸ rfl
      · intro hgd
        exact (o.wf.frame_setBlk o.buf o.blk (hw.unique hgd) _).trans (frame_setBuf _)
      · exact fun _ => hdata.symm
    · refine ⟨H, h, B, ?_, o, rfl, fun p hp => ?_, rfl, rfl, fun _ => Frame.refl _ _, id⟩
      · simp [Buffer.normalize, o.buf, o.blk, hd, hoff]
      · rw [hd] at hp
        obtain rfl := Option.some.inj hp
        change off = 0
        omega

/-- Shrinking a handle, or letting it see more of a block it is at the start of. -/
theorem Owned.resize (o : Owned H i h B c) {n : Nat}
    (hn : n ≤ h.size ∨ (∀ p, h.data = some p → p.off = 0) ∧ n ≤ B.mem.length) :
    ∃ c', Owned (H.setBuf i (some { h with size := n })) i { h with size := n } B c' ∧
      c'.length = n ∧ c'.take h.size = c.take n := by
  obtain ⟨off, hread, hnull, hptr⟩ := read_within o.blk o.within
  have hc := Option.some.inj (o.read.symm.trans hread)
  have hin : Handle.Within { h with size := n } B := by
    rcases hn with hn | ⟨h0, hn⟩
    · exact within_of_le o.within hn
    · have hin := o.within
      unfold Handle.Within at hin ⊢
      split at hin
      · rename_i hd
        simp only [hd]
        rw [hin.2, List.length_nil] at hn
        exact ⟨by omega, hin.2⟩
      · rename_i p hd
        simp only [hd]
        exact ⟨hin.1, hin.2.1, by rw [h0 p hd]; omega⟩
  have hown : ∀ p, h.data = some p → p.blk = h.blk := fun p => o.wf.own i h p o.buf
  have hblk : (H.setBuf i (some { h with size := n })).blks h.blk = some B := o.blk
  obtain ⟨off', hread', hnull', hptr'⟩ := read_within (h := { h with size := n }) hblk hin
  have o' : Owned (H.setBuf i (some { h with size := n })) i { h with size := n } B
      ((B.mem.drop off').take n) := by
    refine ⟨o.wf.rebind o.buf rfl o.blk hown fun _ => hin, by simp [setBuf], hblk, hin, ?_⟩
    unfold RefHeap.content
    simpa [setBuf] using hread'
  refine ⟨_, o', o'.length, ?_⟩
  cases hd : h.data with
  | none =>
    have h0 := hnull hd
    have h0' : n = 0 := hnull' hd
    simp [h0, h0']
  | some p =>
    obtain ⟨rfl, hle⟩ := hptr p hd
    obtain ⟨hp, hle'⟩ := hptr' _ hd
    obtain rfl : off = off' := congrArg Ptr.off hp
    rw [hc, List.take_take, List.take_take, min_comm]

/-- `size( nbytes )` keeps what is in front of the new end. -/
theorem Owned.size (o : Owned H i h B c) (n : Nat) :
    ∃ H' h' B' c', size junk H i n = some H' ∧ Owned H' i h' B' c' ∧ c'.length = n ∧
      c'.take h.size = c.take n ∧ (guarded B.tag → Frame i H H') ∧ (AtStart h B → AtStart h' B') ∧
      (guarded B.tag → guarded B'.tag) ∧ (h.size < n → Writable B') := by
  by_cases hn : n ≤ h.size
  · obtain ⟨c', o', hlen, htake⟩ := o.resize (Or.inl hn)
    refine ⟨_, _, B, c', ?_, o', hlen, htake, fun _ => frame_setBuf _, id, id, fun hlt => ?_⟩
    · simp [Buffer.size, o.buf, hn]
    · omega
  · by_cases hw : Writable B
    · obtain ⟨H₁, h₁, B₁, hnorm, o₁, hsize, hoff, hrefs, htag, hframe, hstart⟩ := o.normalize hw
      have hw₁ : Writable B₁ := by
        unfold Writable
        rw [hrefs, htag]
        exact hw
      by_cases hgrow : B₁.mem.length < n
      · let pad := malloc junk H₁.next (n - B₁.mem.length)
        have hpad : n = B₁.mem.length + pad.length := by
          rw [length_malloc]
          omega
        obtain ⟨wf', ⟨hbuf', hblk', hin'⟩, hcontent', hframe'⟩ :=
          o₁.wf.grow o₁.buf o₁.blk hw₁.free pad hpad
        refine ⟨_, _, _, B₁.mem ++ pad, ?_, ⟨wf', hbuf', hblk', hin', hcontent'⟩, ?_, ?_, ?_,
          fun _ => rfl, ?_, fun _ => hw₁⟩
        · simp only [Buffer.size, o.buf, Option.bind_eq_bind, Option.bind_some, hn, if_false,
            o.isWritable, hw, decide_true, if_true, hnorm, o₁.buf, o₁.blk, hgrow]
          rfl
        · rw [List.length_append]
          exact hpad.symm
        · have hc : c = B₁.mem.take h₁.size := by
            obtain ⟨off, hread, hnull, hptr⟩ := read_within o₁.blk o₁.within
            have hc := Option.some.inj (o₁.read.symm.trans hread)
            cases hd : h₁.data with
            | none => rw [hc, hnull hd, List.take_zero, List.take_zero]
            | some p =>
              obtain ⟨hp, -⟩ := hptr p hd
              have h0 : off = 0 := by rw [← hoff p hd, hp]
              rw [hc, h0, List.drop_zero]
          rw [← hsize, List.take_append_of_le_length o₁.size_le, ← hc,
            List.take_of_length_le (by rw [o.length]; omega)]
        · intro hgd
          exact (hframe hgd).trans (hframe' (hw₁.unique (htag ▸ hgd)))
        · intro hgd
          rw [htag]
          exact hgd
      · obtain ⟨c', o', hlen, htake⟩ := o₁.resize (Or.inr ⟨hoff, Nat.le_of_not_lt hgrow⟩)
        refine ⟨_, _, B₁, c', ?_, o', hlen, by rw [← hsize, htake], ?_, fun hs => hstart hs, ?_,
          fun _ => hw₁⟩
        · simp [Buffer.size, o.buf, hn, o.isWritable, hw, hnorm, o₁.buf, o₁.blk, hgrow]
        · exact fun hgd => (hframe hgd).trans (frame_setBuf _)
        · intro hgd
          rw [htag]
          exact hgd
    · obtain ⟨h', B', o', hf, hs, hr, ht, -⟩ :=
        o.replace (splice (malloc junk H.next n) 0 c) .copyOnWrite
      have hlen : c.length = h.size := o.length
      refine ⟨_, h', B', _, ?_, o', ?_, ?_, fun _ => hf, fun _ => hs, fun _ => ?_,
        fun _ => Or.inl hr⟩
      · simp [Buffer.size, o.buf, hn, o.isWritable, hw, o.content]
      · rw [length_splice _ _ _ (by rw [length_malloc]; omega), length_malloc]
      · rw [← hlen, splice_zero_take, List.take_of_length_le (by omega)]
      · rw [ht]
        exact Policy.noConfusion

/-- An unchecked store into the range of a handle on a block it may change. -/
theorem Owned.rputn (o : Owned H i h B c) {pos : Nat} {bs : List UInt8}
    (hpos : pos + bs.length ≤ h.size) :
    ∃ H' B', rputn H i pos bs = some H' ∧ H.write (h.at pos) bs = some H' ∧
      Owned H' i h B' (splice c pos bs) ∧ B'.refs = B.refs ∧ B'.tag = B.tag ∧
      (AtStart h B → AtStart h B') ∧ (B.refs = 1 → Frame i H H') := by
  obtain ⟨B', hlen, hgen, hrefs, htag, hin, hwrite, wf', hcontent⟩ :=
    o.wf.write ⟨o.buf, o.blk, o.within⟩ hpos o.content
  refine ⟨_, B', ?_, hwrite, ⟨wf', o.buf, by simp [setBlk], hin, hcontent⟩, hrefs, htag, ?_, ?_⟩
  · simp [Buffer.rputn, o.buf, hwrite]
  · intro hs
    have hnil : B'.mem = [] ↔ B.mem = [] := by
      rw [← List.length_eq_zero_iff, hlen, List.length_eq_zero_iff]
    unfold AtStart Block.data at hs ⊢
    simpa only [hnil, hgen] using hs
  · exact fun hu => o.wf.frame_setBlk o.buf o.blk hu _

/-! ### New handles -/

/-- A new handle on a block of its own. -/
theorem owned_construct (wf : H.WF guarded) (data : List UInt8) (pol : Policy) :
    ∃ h' B', Owned (construct H data pol) H.slots h' B' data ∧ Frame H.slots H (construct H data pol) ∧
      AtStart h' B' ∧ B'.refs = 1 ∧ B'.tag = pol ∧ ∀ b, b < H.next → (construct H data pol).blks b =
        H.blks b := by
  have hf := wf.push.frame_attach (i := H.slots) data pol
  refine ⟨_, _, ⟨wf.push.attach (Nat.lt_succ_self _) (wf.absent _ le_rfl) data pol,
    attach_bufs data pol, attach_blks data pol, data_within _ _ _ rfl, content_attach data pol⟩,
    ⟨(Nat.le_succ _).trans hf.slots, hf.bufs, hf.content⟩, rfl, rfl, rfl, fun b hb => ?_⟩
  exact attach_blks_ne data pol (Nat.ne_of_lt hb)

theorem Owned.ne_slots (o : Owned H i h B c) : i ≠ H.slots :=
  Nat.ne_of_lt (o.wf.lt_slots o.buf)

/-- Copying a part of a handle out leaves the handle alone. -/
theorem Owned.construct (o : Owned H i h B c) (data : List UInt8) (pol : Policy) :
    Owned (construct H data pol) i h B c := by
  obtain ⟨h', B', o', hf, -, -, -, hblks⟩ := owned_construct o.wf data pol
  exact o.of_frame o.ne_slots o'.wf hf (by rw [hblks _ (o.wf.lt_next o.blk), o.blk]) rfl rfl

/-- A second handle on the block of the first one. -/
theorem Owned.share (o : Owned H i h B c) {offset n : Nat} (hle : offset + n ≤ h.size) :
    Owned (H.push.share H.slots ⟨h.blk, h.at offset, n⟩) i h { B with refs := B.refs + 1 } c ∧
      (H.push.share H.slots ⟨h.blk, h.at offset, n⟩).content H.slots =
        some ((c.drop offset).take n) ∧
      Frame H.slots H (H.push.share H.slots ⟨h.blk, h.at offset, n⟩) := by
  have hown : ∀ p, h.at offset = some p → p.blk = h.blk := by
    intro p hp
    unfold Handle.at at hp
    obtain ⟨q, hq, rfl⟩ := Option.map_eq_some_iff.mp hp
    exact o.wf.own i h q o.buf hq
  have hin : Handle.Within ⟨h.blk, h.at offset, n⟩ B := by
    have hin := o.within
    unfold Handle.Within at hin ⊢
    cases hd : h.data with
    | none =>
      simp only [hd] at hin
      simp only [Handle.at, hd, Option.map_none]
      exact ⟨by omega, hin.2⟩
    | some p =>
      simp only [hd] at hin
      simp only [Handle.at, hd, Option.map_some, Ptr.add]
      exact ⟨hin.1, hin.2.1, by omega⟩
  have hblk : H.push.blks (⟨h.blk, h.at offset, n⟩ : Handle).blk = some B := o.blk
  have wf' := o.wf.push.share (Nat.lt_succ_self _) (o.wf.absent _ le_rfl) hblk hown fun _ => hin
  have hf := o.wf.push.frame_share (i := H.slots) hblk
  have hframe : Frame H.slots H (H.push.share H.slots ⟨h.blk, h.at offset, n⟩) :=
    ⟨(Nat.le_succ _).trans hf.slots, hf.bufs, hf.content⟩
  refine ⟨o.of_frame o.ne_slots wf' hframe (share_blks_self hblk) rfl rfl, ?_, hframe⟩
  rw [content_share hblk hown]
  exact o.read_at hle

/-- `slice( offset, len )` shows that part of the handle in a new slot. -/
theorem Owned.slice (o : Owned H i h B c) (offset len : Nat) (forceCopy : Bool) :
    ∃ H' B', slice H i offset len forceCopy = some H' ∧ Owned H' i h B' c ∧
      H'.content H.slots = some ((c.drop offset).take len) ∧ Frame H.slots H H' ∧
      B'.tag = B.tag ∧ B'.mem = B.mem ∧ B'.gen = B.gen ∧
      (B.tag = .exclusive ∨ forceCopy → B'.refs = B.refs) := by
  have hlen := o.length
  have hpart : (c.drop offset).take len =
      (c.drop offset).take (if offset < h.size then min len (h.size - offset) else 0) := by
    apply List.take_eq_take_iff.mpr
    rw [List.length_drop]
    split_ifs <;> omega
  set n := if offset < h.size then min len (h.size - offset) else 0 with hn
  have hle : n = 0 ∨ offset + n ≤ h.size := by
    rw [hn]
    split_ifs <;> omega
  rw [hpart]
  by_cases hz : n = 0
  · obtain ⟨h', B', o', hf, -⟩ := owned_construct o.wf [] .copyOnWrite
    refine ⟨_, B, ?_, o.construct [] .copyOnWrite, ?_, hf, rfl, rfl, rfl, fun _ => rfl⟩
    · simp only [Buffer.slice, o.buf, o.blk, Option.bind_eq_bind, Option.bind_some, ← hn, hz,
        if_true]
      rfl
    · rw [hz, List.take_zero]
      exact o'.content
  · have hle : offset + n ≤ h.size := hle.resolve_left hz
    by_cases hcopy : B.tag = .exclusive ∨ forceCopy
    · obtain ⟨h', B', o', hf, -⟩ := owned_construct o.wf ((c.drop offset).take n) .copyOnWrite
      refine ⟨_, B, ?_, o.construct _ .copyOnWrite, o'.content, hf, rfl, rfl, rfl, fun _ => rfl⟩
      simp only [Buffer.slice, o.buf, o.blk, Option.bind_eq_bind, Option.bind_some, ← hn, hz,
        if_false, hcopy, if_true, o.read_at hle]
      rfl
    · obtain ⟨o', hc', hf⟩ := o.share hle
      refine ⟨_, _, ?_, o', hc', hf, rfl, rfl, rfl, fun hno => absurd hno hcopy⟩
      simp only [Buffer.slice, o.buf, o.blk, Option.bind_eq_bind, Option.bind_some, ← hn, hz,
        if_false, hcopy]
      rfl

/-- The copy constructor shows the same bytes in a new slot. -/
theorem Owned.adopt (o : Owned H i h B c) :
    ∃ H' B', adopt H i = some H' ∧ Owned H' i h B' c ∧ H'.content H.slots = some c ∧
      Frame H.slots H H' ∧ B'.tag = B.tag ∧ B'.mem = B.mem ∧ B'.gen = B.gen := by
  by_cases hx : B.tag = .exclusive
  · obtain ⟨h', B', o', hf, -⟩ := owned_construct o.wf c .copyOnWrite
    refine ⟨_, B, ?_, o.construct c .copyOnWrite, o'.content, hf, rfl, rfl, rfl⟩
    simp only [Buffer.adopt, o.buf, o.blk, Option.bind_eq_bind, Option.bind_some, hx, if_true,
      o.content]
    rfl
  · obtain ⟨o', hc', hf⟩ := o.share (show 0 + h.size ≤ h.size by omega)
    have hat : h.at 0 = h.data := by
      cases hd : h.data <;> simp [Handle.at, hd, Ptr.add]
    rw [hat] at o' hc' hf
    refine ⟨_, _, ?_, o', ?_, hf, rfl, rfl, rfl⟩
    · simp only [Buffer.adopt, o.buf, o.blk, Option.bind_eq_bind, Option.bind_some, hx, if_false]
      rfl
    · rw [hc', List.drop_zero, List.take_of_length_le o.length.le]

/-- Dropping a handle leaves the others alone. -/
theorem Owned.drop (o : Owned H i h B c) {j : Nat} (hj : j ≠ i) :
    ∃ B', Owned (unshare H j) i h B' c ∧ Frame j H (unshare H j) ∧ B'.mem = B.mem ∧
      B'.gen = B.gen ∧ B'.tag = B.tag ∧ (B.refs = 1 → B'.refs = 1) := by
  cases hk : H.bufs j with
  | none =>
    have hself : unshare H j = H := by
      unfold unshare RefHeap.detach
      rw [hk]
    rw [hself]
    exact ⟨B, o, Frame.refl _ _, rfl, rfl, rfl, id⟩
  | some k =>
    have hf := o.wf.frame_detach hk
    obtain ⟨B', hB', hm, hg, ht⟩ := o.wf.release_blks hk (Ne.symm hj) o.buf o.blk
    have hB'' : (unshare H j).blks h.blk = some B' := by
      unfold unshare
      rw [detach_eq hk]
      exact hB'
    refine ⟨B', o.of_frame (Ne.symm hj) (o.wf.detach hk) hf hB'' hm hg, hf, hm, hg, ht,
      fun hone => ?_⟩
    have hne : h.blk ≠ k.blk := fun heq => o.wf.sole o.buf o.blk hone hj hk heq.symm
    rw [release_blks_ne hne, o.blk] at hB'
    rw [← Option.some.inj hB']
    exact hone

end

end Nodeoze.Buffer
