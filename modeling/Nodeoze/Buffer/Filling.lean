import Nodeoze.Buffer.Spec

/-!
# Filling a buffer in place

A buffer is filled from outside, by code that was given its address, and copies of it share the block.
What is stored reaches the copies: each shows the front of the block, as long as the block is not reallocated.
-/

namespace Nodeoze.Buffer

open RefHeap Splice

/-- `n` copies of the handle in slot `i`, in the next slots. -/
def copies (H : Heap) (i : Nat) : Nat → Option Heap
  | 0 => some H
  | n + 1 => do
    let H ← adopt H i
    copies H i n

/-- The buffer is cut to `len` bytes, and `n` copies of it are made. -/
def cut (junk : Nat → Nat → UInt8) (H : Heap) (i len n : Nat) : Option Heap := do
  let H ← size junk H i len
  copies H i n

/-- Bytes are stored at the address of the buffer, which is then cut to them. -/
def readInto (junk : Nat → Nat → UInt8) (H : Heap) (i : Nat) (bytes : List UInt8) (n : Nat) : Option Heap := do
  let H ← rputn H i 0 bytes
  cut junk H i bytes.length n

/-- A text with another one stored over its front. -/
def overlay (old new : List UInt8) : List UInt8 := new.take old.length ++ old.drop new.length

/-- Where the memory of block `b` starts. -/
def front (b : Nat) (mem : List UInt8) (gen : Nat) : Option Ptr := if mem = [] then none else some ⟨b, gen, 0⟩

/-- Handle `i` shows the first `n` bytes of block `b`, whose memory is `mem`. -/
structure Fronts (H : Heap) (i b : Nat) (tag : Policy) (mem : List UInt8) (gen n : Nat) : Prop where
  wf : H.WF fun _ => False
  buf : H.bufs i = some ⟨b, front b mem gen, n⟩
  blk : ∃ refs, H.blks b = some ⟨mem, gen, refs, tag⟩
  le : n ≤ mem.length

/-- Nothing has become of the handles other than `i`. -/
structure Others (i : Nat) (H H' : Heap) : Prop where
  slots : H'.slots = H.slots
  bufs : ∀ j, j ≠ i → H'.bufs j = H.bufs j

section

variable (junk : Nat → Nat → UInt8) {H : Heap} {i b : Nat} {tag : Policy} {mem : List UInt8} {gen n : Nat}

theorem take_overlay {k : Nat} {bytes : List UInt8} (hk : k ≤ mem.length) :
    (splice mem 0 bytes).take k = overlay (mem.take k) bytes := by
  rw [splice, overlay, List.take_zero, List.nil_append, Nat.zero_add, List.take_append, List.length_take,
    Nat.min_eq_left hk, List.drop_take]

theorem front_blk {p : Ptr} (h : front b mem gen = some p) : p.blk = b := by
  rw [front] at h
  split_ifs at h
  exact (Option.some.inj h) ▸ rfl

/-- The buffer may show more or less of its block. -/
theorem Fronts.resize (f : Fronts H i b tag mem gen n) {k : Nat} (hk : k ≤ mem.length) :
    Fronts (H.setBuf i (some ⟨b, front b mem gen, k⟩)) i b tag mem gen k ∧
      Others i H (H.setBuf i (some ⟨b, front b mem gen, k⟩)) := by
  obtain ⟨refs, hblk⟩ := f.blk
  refine ⟨⟨?_, ?_, ⟨refs, hblk⟩, hk⟩, rfl, fun j hj => ?_⟩
  · exact f.wf.rebind f.buf rfl hblk (fun p hp => front_blk hp) False.elim
  · simp [setBuf]
  · exact Function.update_of_ne hj _ _

theorem Fronts.size_of_le (f : Fronts H i b tag mem gen n) {k : Nat} (hk : k ≤ n) :
    size junk H i k = some (H.setBuf i (some ⟨b, front b mem gen, k⟩)) := by
  unfold size
  simp [f.buf, hk]

/-- Bytes are stored at the start of the block, whoever shares it. -/
theorem Fronts.rputn (f : Fronts H i b tag mem gen n) {bytes : List UInt8} (hbytes : bytes ≠ [])
    (hlen : bytes.length ≤ n) :
    ∃ H', rputn H i 0 bytes = some H' ∧ Fronts H' i b tag (splice mem 0 bytes) gen n ∧ Others i H H' := by
  obtain ⟨refs, hblk⟩ := f.blk
  have hpos := List.length_pos_iff.mpr hbytes
  have hle := f.le
  have hmem : mem ≠ [] := List.ne_nil_of_length_pos (by omega)
  have hlength := length_splice mem 0 bytes (by omega)
  have hmem' : splice mem 0 bytes ≠ [] := List.ne_nil_of_length_pos (by omega)
  have hfront : front b (splice mem 0 bytes) gen = front b mem gen := by rw [front, front, if_neg hmem, if_neg hmem']
  obtain ⟨B', hB'⟩ : ∃ B' : Block UInt8 Policy, B' = ⟨splice mem 0 bytes, gen, refs, tag⟩ := ⟨_, rfl⟩
  have hwf : ((H.setBlk b (some B')).setBuf i (some ⟨b, front b mem gen, n⟩)).WF fun _ => False :=
    f.wf.update f.buf hblk rfl (hB' ▸ rfl) (hB' ▸ rfl) (fun p hp => front_blk hp) False.elim fun hf => hf.elim
  have hsame : (H.setBlk b (some B')).setBuf i (some ⟨b, front b mem gen, n⟩) = H.setBlk b (some B') :=
    setBuf_self (H := H.setBlk b (some B')) f.buf
  rw [hsame] at hwf
  refine ⟨H.setBlk b (some B'), ?_, ⟨hwf, ?_, ⟨refs, ?_⟩, by omega⟩, ⟨rfl, fun _ _ => rfl⟩⟩
  · unfold Buffer.rputn RefHeap.write
    simp [f.buf, Handle.at, front, hmem, hbytes, Ptr.add, hblk, show bytes.length ≤ mem.length by omega, hB']
  · rw [hfront]
    exact f.buf
  · simp [RefHeap.setBlk, hB']

/-- A copy is made of a handle on the block. -/
theorem Fronts.adopt (f : Fronts H i b tag mem gen n) (htag : tag ≠ .exclusive) {j : Nat} {h : Handle}
    (hj : H.bufs j = some h) (hh : h.blk = b) :
    ∃ H', adopt H j = some H' ∧ Fronts H' i b tag mem gen n ∧ H'.slots = H.slots + 1 ∧ H'.bufs H.slots = some h ∧
      ∀ l, l ≠ H.slots → H'.bufs l = H.bufs l := by
  obtain ⟨refs, hblk⟩ := f.blk
  have hslot := f.wf.lt_slots f.buf
  have hblk' : H.push.blks h.blk = some ⟨mem, gen, refs, tag⟩ := by rw [hh]; exact hblk
  have hother : ∀ l, l ≠ H.slots → (H.push.share H.slots h).bufs l = H.bufs l := fun l hl => share_bufs_ne hblk' hl
  refine ⟨H.push.share H.slots h, ?_, ⟨?_, ?_, ⟨refs + 1, ?_⟩, f.le⟩, ?_, share_bufs hblk', hother⟩
  · unfold Buffer.adopt
    simp only [hj, hh, hblk, Option.bind_eq_bind, Option.bind_some, if_neg htag]
    rfl
  · exact f.wf.push.share (Nat.lt_succ_self _) (f.wf.absent _ (Nat.le_refl _)) hblk' (f.wf.own j h · hj) False.elim
  · rw [hother _ (by omega)]
    exact f.buf
  · have hself := share_blks_self (i := H.slots) hblk'
    rwa [hh] at hself
  · rw [share_eq hblk']
    rfl

theorem Fronts.copies (f : Fronts H i b tag mem gen n) (htag : tag ≠ .exclusive) (k : Nat) :
    ∃ H', copies H i k = some H' ∧ Fronts H' i b tag mem gen n ∧ H'.slots = H.slots + k ∧
      (∀ l ∈ List.range' H.slots k, H'.bufs l = some ⟨b, front b mem gen, n⟩) ∧
      ∀ l, l < H.slots → H'.bufs l = H.bufs l := by
  induction k generalizing H with
  | zero => exact ⟨H, rfl, f, rfl, fun l hl => absurd hl (by simp), fun _ _ => rfl⟩
  | succ k ih =>
    obtain ⟨H', hH', hf, hslots, hnew, hold⟩ := f.adopt htag f.buf rfl
    obtain ⟨H'', hH'', hf', hslots', hnew', hold'⟩ := ih hf
    refine ⟨H'', ?_, hf', by omega, fun l hl => ?_, fun l hl => ?_⟩
    · rw [Buffer.copies, hH']
      exact hH''
    · rw [List.range'_succ] at hl
      rcases List.mem_cons.mp hl with rfl | hl
      · rw [hold' H.slots (by omega), hnew]
      · exact hnew' l (hslots ▸ hl)
    · rw [hold' l (by omega), hold l (by omega)]

theorem Fronts.cut (f : Fronts H i b tag mem gen n) (htag : tag ≠ .exclusive) {len : Nat} (hlen : len ≤ n) (k : Nat) :
    ∃ H', cut junk H i len k = some H' ∧ Fronts H' i b tag mem gen len ∧ H'.slots = H.slots + k ∧
      (∀ l ∈ List.range' H.slots k, H'.bufs l = some ⟨b, front b mem gen, len⟩) ∧
      ∀ l, l ≠ i → l < H.slots → H'.bufs l = H.bufs l := by
  obtain ⟨hf, ho⟩ := f.resize (hlen.trans f.le)
  obtain ⟨H', hH', hf', hslots, hnew, hold⟩ := hf.copies htag k
  rw [ho.slots] at hslots hnew hold
  refine ⟨H', ?_, hf', hslots, hnew, fun l hl hlt => ?_⟩
  · rw [Buffer.cut, f.size_of_le junk hlen]
    exact hH'
  · rw [hold l hlt, ho.bufs l hl]

theorem Fronts.readInto (f : Fronts H i b tag mem gen n) (htag : tag ≠ .exclusive) {bytes : List UInt8}
    (hbytes : bytes ≠ []) (hlen : bytes.length ≤ n) (k : Nat) :
    ∃ H', readInto junk H i bytes k = some H' ∧ Fronts H' i b tag (splice mem 0 bytes) gen bytes.length ∧
      H'.slots = H.slots + k ∧
      (∀ l ∈ List.range' H.slots k, H'.bufs l = some ⟨b, front b (splice mem 0 bytes) gen, bytes.length⟩) ∧
      ∀ l, l ≠ i → l < H.slots → H'.bufs l = H.bufs l := by
  obtain ⟨H₁, hH₁, hf₁, ho⟩ := f.rputn hbytes hlen
  obtain ⟨H', hH', hf', hslots, hnew, hold⟩ := hf₁.cut junk htag hlen k
  rw [ho.slots] at hslots hnew hold
  refine ⟨H', ?_, hf', hslots, hnew, fun l hl hlt => (hold l hl hlt).trans (ho.bufs l hl)⟩
  rw [Buffer.readInto, hH₁]
  exact hH'

/-- A copy goes, and the buffer keeps its block. -/
theorem Fronts.detach (f : Fronts H i b tag mem gen n) {j : Nat} {h : Handle} (hj : H.bufs j = some h)
    (hne : j ≠ i) :
    Fronts (H.detach j) i b tag mem gen n ∧ (H.detach j).slots = H.slots ∧
      ∀ l, l ≠ j → (H.detach j).bufs l = H.bufs l := by
  obtain ⟨refs, hblk⟩ := f.blk
  have hframe := f.wf.frame_detach hj
  obtain ⟨⟨mem', gen', refs', tag'⟩, hblk', hmem, hgen, htag⟩ := f.wf.release_blks hj (Ne.symm hne) f.buf hblk
  dsimp only at hmem hgen htag
  subst hmem hgen htag
  refine ⟨⟨f.wf.detach hj, ?_, ⟨refs', ?_⟩, f.le⟩, ?_, hframe.bufs⟩
  · rw [hframe.bufs _ (Ne.symm hne)]
    exact f.buf
  · rw [detach_eq hj]
    exact hblk'
  · rw [detach_eq hj]
    exact release_slots _

/-- What a copy shows: the front of the block, if the block is still where it was. -/
theorem Fronts.content (f : Fronts H i b tag mem gen n) {j k old : Nat} {mem' : List UInt8} (hmem : mem' ≠ [])
    (hk : 0 < k) (hj : H.bufs j = some ⟨b, front b mem' old, k⟩) :
    H.content j = if old = gen ∧ k ≤ mem.length then some (mem.take k) else none := by
  obtain ⟨refs, hblk⟩ := f.blk
  unfold RefHeap.content RefHeap.read
  simp [hj, front, hmem, show k ≠ 0 by omega, hblk]

/-! A `no_copy_on_write` buffer is changed in place. -/

theorem Fronts.isWritable (f : Fronts H i b .noCopyOnWrite mem gen n) : isWritable H i = some true := by
  obtain ⟨refs, hblk⟩ := f.blk
  rw [isWritable_eq f.buf hblk, decide_eq_true (show Writable _ from .inr rfl)]

theorem Fronts.normalize (f : Fronts H i b .noCopyOnWrite mem gen n) : normalize H i = some H := by
  obtain ⟨refs, hblk⟩ := f.blk
  unfold Buffer.normalize
  by_cases hmem : mem = []
  · simp [f.buf, hblk, front, hmem]
  · simp [f.buf, hblk, front, hmem]

/-- The block is reallocated when it is too small, and only then. -/
theorem Fronts.size (f : Fronts H i b .noCopyOnWrite mem gen n) (k : Nat) :
    ∃ H' pad gen', Buffer.size junk H i k = some H' ∧ Fronts H' i b .noCopyOnWrite (mem ++ pad) gen' k ∧ Others i H H' ∧
      (if mem.length < k then gen' = gen + 1 ∧ mem.length + pad.length = k else gen' = gen ∧ pad = []) := by
  by_cases hk : k ≤ mem.length
  · obtain ⟨hr, ho⟩ := f.resize hk
    refine ⟨_, [], gen, ?_, by rwa [List.append_nil], ho, ?_⟩
    · by_cases hn : k ≤ n
      · exact f.size_of_le junk hn
      · obtain ⟨refs, hblk⟩ := f.blk
        unfold Buffer.size
        simp [f.buf, hn, f.isWritable, f.normalize, hblk, Nat.not_lt.mpr hk]
    · rw [if_neg (by omega)]
      exact ⟨rfl, rfl⟩
  · obtain ⟨refs, hblk⟩ := f.blk
    have hle := f.le
    have hlen : k = mem.length + (malloc junk H.next (k - mem.length)).length := by
      rw [length_malloc]
      omega
    obtain ⟨hwf, ⟨hbuf, hblk', -⟩, -, -⟩ :=
      f.wf.grow f.buf hblk (.inr id) (malloc junk H.next (k - mem.length)) hlen
    refine ⟨_, malloc junk H.next (k - mem.length), gen + 1, ?_, ⟨hwf, hbuf, ⟨refs, hblk'⟩, ?_⟩, ⟨?_, ?_⟩, ?_⟩
    · unfold Buffer.size
      simp only [f.buf, Option.bind_eq_bind, Option.bind_some, if_neg (show ¬k ≤ n by omega), f.isWritable,
        f.normalize, hblk, if_true, if_pos (show k > mem.length by omega)]
      rfl
    · rw [List.length_append]
      omega
    · simp only [grow, hblk]
      rfl
    · intro j hj
      simp only [grow, hblk]
      exact Function.update_of_ne hj _ _
    · rw [if_pos (by omega)]
      exact ⟨rfl, hlen.symm⟩

theorem Fronts.mutableData (f : Fronts H i b .noCopyOnWrite mem gen n) : mutableData H i = some H := by
  unfold Buffer.mutableData
  rw [f.isWritable]
  rfl

end

end Nodeoze.Buffer
