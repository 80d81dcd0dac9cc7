import Nodeoze.Buffer.Changes

/-!
# The operations as changes

One lemma for each operation: on a handle that sits in its block the operation is defined, it is a
chain of changes, and the handle sits in its block afterwards.  Where the source goes wrong the lemma
asks for the branch not to be taken: `assign` and `append` must fit in the block they may write, and
`size` must not reallocate under other handles.
-/

namespace Nodeoze.Buffer

open RefHeap Splice

variable {H : Heap} {i : Nat} {h : Handle} {B : Block UInt8 Policy}

/-- The operation ends in `H'`, by changes through slot `i`, with the handle seated and `n` long. -/
def Does (i : Nat) (H : Heap) (r : Option Heap) (n : Nat) : Prop :=
  ∃ H' h' B', r = some H' ∧ Change i H H' ∧ At H' i h' B' ∧ h'.size = n

/-! ## Looking -/

theorem At.isUnique (a : At H i h B) : isUnique H i = some (decide (B.refs = 1)) :=
  isUnique_eq a.buf a.blk

theorem At.isPolicy (a : At H i h B) (pol : Policy) :
    isPolicy H i pol = some (decide (B.tag = pol)) := isPolicy_eq a.buf a.blk pol

theorem At.isWritable (a : At H i h B) : isWritable H i = some (decide (Writable B)) :=
  isWritable_eq a.buf a.blk

theorem At.sizeOf (a : At H i h B) : sizeOf H i = h.size := by
  simp [Buffer.sizeOf, a.buf]

theorem At.dataOf (a : At H i h B) : dataOf H i = h.data := by
  simp [Buffer.dataOf, a.buf]

/-- A handle is null on a block without memory, or points into a block that has some. -/
theorem Sits.cases (s : Sits h B) :
    (h.data = none ∧ h.size = 0 ∧ B.mem = []) ∨
      ∃ off, h.data = some ⟨h.blk, B.gen, off⟩ ∧ off + h.size ≤ B.mem.length ∧ B.mem ≠ [] := by
  have hin := s.within
  have hnull := s.null
  unfold Handle.Within at hin
  cases hd : h.data with
  | none =>
    simp only [hd] at hin
    exact Or.inl ⟨rfl, hin.1, hin.2⟩
  | some p =>
    simp only [hd] at hin
    obtain ⟨hb, hg, hle⟩ := hin
    refine Or.inr ⟨p.off, by rw [← hb, ← hg], hle, ?_⟩
    intro hm
    rw [hnull hm] at hd
    cases hd

theorem Sits.size_le (s : Sits h B) : h.size ≤ B.mem.length := by
  rcases s.cases with ⟨-, hsize, -⟩ | ⟨off, -, hle, -⟩ <;> omega

/-- Any part of the range of a handle can be read. -/
theorem At.read_at (a : At H i h B) {k n : Nat} (hk : k + n ≤ h.size) :
    ∃ bytes, H.read (h.at k) n = some bytes ∧ bytes.length = n := by
  by_cases hn : n = 0
  · exact ⟨[], by simp [RefHeap.read, hn], by simp [hn]⟩
  · rcases a.sits.cases with ⟨-, hsize, -⟩ | ⟨off, hd, hle, -⟩
    · omega
    · refine ⟨(B.mem.drop (off + k)).take n, ?_, ?_⟩
      · have hle' : off + k + n ≤ B.mem.length := by omega
        simp [RefHeap.read, hn, Handle.at, hd, Ptr.add, a.blk, hle']
      · rw [List.length_take, List.length_drop]
        omega

theorem at_zero (h : Handle) : h.at 0 = h.data := by
  cases hd : h.data <;> simp [Handle.at, hd, Ptr.add]

theorem At.content (a : At H i h B) : ∃ c, H.content i = some c ∧ c.length = h.size := by
  obtain ⟨c, hread, hlen⟩ := a.read_at (k := 0) (n := h.size) (by omega)
  refine ⟨c, ?_, hlen⟩
  rw [at_zero] at hread
  simp [RefHeap.content, a.buf, hread]

/-! ## Blocks of one's own -/

/-- The handle gives up its block for a new one that holds `bytes`. -/
theorem At.replace (a : At H i h B) (bytes : List UInt8) :
    ∃ h' B', Change i H ((unshare H i).attach i bytes .copyOnWrite) ∧
      At ((unshare H i).attach i bytes .copyOnWrite) i h' B' ∧ h'.size = bytes.length ∧
      B'.refs = 1 := by
  have hslot : i < (H.detach i).slots := by
    rw [detach_slots a.buf]
    exact a.slot
  have hnone := detach_bufs_self a.buf
  refine ⟨_, _, (Change.drop a.buf).trans (.attach bytes hslot hnone),
    ⟨hslot, attach_bufs bytes _, attach_blks bytes _, ?_⟩, rfl, rfl⟩
  exact sits_data _ ⟨bytes, 0, 1, .copyOnWrite⟩

theorem At.does_replace (a : At H i h B) (bytes : List UInt8) :
    Does i H (some ((unshare H i).attach i bytes .copyOnWrite)) bytes.length := by
  obtain ⟨h', B', c, a', hsize, -⟩ := a.replace bytes
  exact ⟨_, h', B', rfl, c, a', hsize⟩

/-- The handle is put on a copy of its bytes, unless it is alone already. -/
theorem At.forceUnique (a : At H i h B) :
    ∃ H' h' B', forceUnique H i = some H' ∧ Change i H H' ∧ At H' i h' B' ∧ h'.size = h.size ∧
      B'.refs = 1 := by
  by_cases hone : B.refs = 1
  · exact ⟨H, h, B, by simp [Buffer.forceUnique, a.isUnique, hone], .refl H, a, rfl, hone⟩
  · obtain ⟨c, hc, hlen⟩ := a.content
    obtain ⟨h', B', hchange, a', hsize, hrefs⟩ := a.replace c
    refine ⟨_, h', B', ?_, hchange, a', by rw [hsize, hlen], hrefs⟩
    simp [Buffer.forceUnique, Buffer.clone, a.isUnique, hone, hc]

theorem At.does_clone (a : At H i h B) : Does i H (clone H i) h.size := by
  obtain ⟨c, hc, hlen⟩ := a.content
  have hdoes := a.does_replace c
  rw [hlen] at hdoes
  simpa [Buffer.clone, hc] using hdoes

theorem At.does_forceUnique (a : At H i h B) : Does i H (Buffer.forceUnique H i) h.size := by
  obtain ⟨H', h', B', hrun, c, a', hsize, -⟩ := a.forceUnique
  exact ⟨H', h', B', hrun, c, a', hsize⟩

theorem At.does_forceUniqueN (junk : Nat → Nat → UInt8) (a : At H i h B) {n : Nat}
    (hn : n ≤ h.size) : Does i H (forceUniqueN junk H i n) h.size := by
  by_cases hone : B.refs = 1
  · exact ⟨H, h, B, by simp [Buffer.forceUniqueN, a.isUnique, hone], .refl H, a, rfl⟩
  · have hmem := read_data a.blk (hn.trans a.sits.size_le)
    have hdoes := a.does_replace (splice (malloc junk H.next h.size) 0 (B.mem.take n))
    rw [length_splice _ _ _ (by rw [length_malloc, List.length_take]; omega), length_malloc] at hdoes
    simpa [Buffer.forceUniqueN, a.isUnique, hone, a.buf, a.blk, hmem, hn] using hdoes

theorem At.mutableData (a : At H i h B) :
    ∃ H' h' B', mutableData H i = some H' ∧ Change i H H' ∧ At H' i h' B' ∧ h'.size = h.size ∧
      Writable B' := by
  by_cases hw : Writable B
  · exact ⟨H, h, B, by simp [Buffer.mutableData, a.isWritable, hw], .refl H, a, rfl, hw⟩
  · obtain ⟨H', h', B', hrun, c, a', hsize, hone⟩ := a.forceUnique
    exact ⟨H', h', B', by simp [Buffer.mutableData, a.isWritable, hw, hrun], c, a', hsize,
      Or.inl hone⟩

/-! ## Storing -/

theorem write_blk {b off : Nat} {bs : List UInt8} (hb : H.blks b = some B)
    (hle : off + bs.length ≤ B.mem.length) :
    H.write (some ⟨b, B.gen, off⟩) bs =
      some (H.setBlk b (some { B with mem := splice B.mem off bs })) := by
  by_cases hbs : bs = []
  · simp [RefHeap.write, hbs, setBlk_self hb]
  · simp [RefHeap.write, hbs, hb, hle]

/-- A store into the block of a handle that may write it. -/
theorem At.store (a : At H i h B) (hw : Writable B) {off : Nat} {bs : List UInt8}
    (hle : off + bs.length ≤ B.mem.length) :
    ∃ B', H.write (some ⟨h.blk, B.gen, off⟩) bs = some (H.setBlk h.blk (some B')) ∧
      Change i H (H.setBlk h.blk (some B')) ∧ At (H.setBlk h.blk (some B')) i h B' ∧
      B'.mem.length = B.mem.length ∧ B'.gen = B.gen ∧ B'.refs = B.refs ∧ B'.tag = B.tag := by
  have hlen : (splice B.mem off bs).length = B.mem.length := length_splice _ _ _ hle
  refine ⟨{ B with mem := splice B.mem off bs }, write_blk a.blk hle, .store _ a hw hlen,
    ⟨a.slot, a.buf, setBlk_blks_self _ _ _, a.sits.congr hlen rfl⟩, hlen, rfl, rfl, rfl⟩

/-- A store into the range of a handle that may write its block. -/
theorem At.does_write (a : At H i h B) (hw : Writable B) {k : Nat} {bs : List UInt8}
    (hk : k + bs.length ≤ h.size) : Does i H (H.write (h.at k) bs) h.size := by
  rcases a.sits.cases with ⟨-, hsize, -⟩ | ⟨off, hd, hle, -⟩
  · have hbs : bs = [] := List.eq_nil_of_length_eq_zero (by omega)
    exact ⟨H, h, B, by simp [RefHeap.write, hbs], .refl H, a, rfl⟩
  · have hle' : off + k + bs.length ≤ B.mem.length := by omega
    obtain ⟨B', hwrite, c, a', -⟩ := a.store hw hle'
    refine ⟨_, h, B', ?_, c, a', rfl⟩
    simpa [Handle.at, hd, Ptr.add] using hwrite

/-- What follows a first part that is done. -/
theorem Does.then {H₁ : Heap} {r : Option Heap} {n : Nat} (c : Change i H H₁)
    (d : Does i H₁ r n) : Does i H r n := by
  obtain ⟨H', h', B', hr, c', a', hsize⟩ := d
  exact ⟨H', h', B', hr, c.trans c', a', hsize⟩

theorem At.does_put (a : At H i h B) {index : Nat} {bytes : List UInt8}
    (hle : index + bytes.length ≤ h.size) : Does i H (put H i index bytes) h.size := by
  obtain ⟨H', h', B', hrun, c, a', hsize, hw⟩ := a.mutableData
  have hput : put H i index bytes = H'.write (h'.at index) bytes := by
    simp [Buffer.put, hrun, Buffer.rputn, a'.buf]
  have hdoes : Does i H' (H'.write (h'.at index) bytes) h'.size := a'.does_write hw (by omega)
  rw [hput, ← hsize]
  exact hdoes.then c

theorem At.does_fill (a : At H i h B) (value : UInt8) : Does i H (fill H i value) h.size := by
  by_cases hz : h.size = 0
  · exact ⟨H, h, B, by simp [Buffer.fill, a.sizeOf, hz], .refl H, a, rfl⟩
  · have hlen : (List.replicate h.size value).length = h.size := List.length_replicate
    by_cases hw : Writable B
    · have hdoes : Does i H (H.write (h.at 0) (List.replicate h.size value)) h.size :=
        a.does_write hw (by omega)
      rw [at_zero] at hdoes
      simpa [Buffer.fill, a.sizeOf, a.dataOf, hz, a.isWritable, hw] using hdoes
    · have hdoes := a.does_replace (List.replicate h.size value)
      rw [hlen] at hdoes
      simpa [Buffer.fill, a.sizeOf, hz, a.isWritable, hw] using hdoes

theorem At.does_rotate (a : At H i h B) {to_ from_ end_ : Nat}
    (hin : to_ < h.size → from_ < h.size → end_ ≤ h.size →
      from_ ≤ end_ ∧ to_ + (end_ - from_) ≤ h.size) :
    Does i H ((rotate H i to_ from_ end_).map Prod.fst) h.size := by
  by_cases hz : h.size = 0
  · exact ⟨H, h, B, by simp [Buffer.rotate, a.sizeOf, hz], .refl H, a, rfl⟩
  · by_cases hbounds : to_ < h.size ∧ from_ < h.size ∧ end_ ≤ h.size
    · obtain ⟨hto, hfrom, hend⟩ := hbounds
      obtain ⟨hle, hfit⟩ := hin hto hfrom hend
      have hdiff : difference end_ from_ = end_ - from_ := if_pos hle
      obtain ⟨H₁, h₁, B₁, hrun, c, a₁, hsize, hw⟩ := a.mutableData
      obtain ⟨bytes, hread, hlen⟩ := a₁.read_at (k := from_) (n := end_ - from_) (by omega)
      have hdoes : Does i H₁ (H₁.write (h₁.at to_) bytes) h₁.size := a₁.does_write hw (by omega)
      obtain ⟨H', h', B', hwrite, c', a', hsize'⟩ := hdoes
      refine ⟨H', h', B', ?_, c.trans c', a', by rw [hsize', hsize]⟩
      simp [Buffer.rotate, a.sizeOf, hz, hto, hfrom, hend, hrun, a₁.buf, hdiff, hread, hwrite]
    · refine ⟨H, h, B, ?_, .refl H, a, rfl⟩
      simp only [Buffer.rotate, a.sizeOf, hz, hbounds]
      simp

/-- `put( index, value, ec )` checks what it needs. -/
theorem At.does_putEc (a : At H i h B) (index : Nat) (value : UInt8) :
    Does i H ((putEc H i index value).map Prod.fst) h.size := by
  by_cases hd : h.data = none
  · exact ⟨H, h, B, by simp [Buffer.putEc, a.dataOf, hd], .refl H, a, rfl⟩
  · by_cases hi : h.size ≤ index
    · exact ⟨H, h, B, by simp [Buffer.putEc, a.dataOf, hd, a.sizeOf, hi], .refl H, a, rfl⟩
    · have hdoes : Does i H (put H i index [value]) h.size :=
        a.does_put (by rw [List.length_singleton]; omega)
      obtain ⟨H', h', B', hput, c, a', hsize⟩ := hdoes
      exact ⟨H', h', B', by simp [Buffer.putEc, a.dataOf, hd, a.sizeOf, hi, hput], c, a', hsize⟩

theorem At.does_putnEc (a : At H i h B) {index : Nat} {bytes : List UInt8}
    (hlimit : index + bytes.length < sizeLimit) :
    Does i H ((putnEc H i index bytes).map Prod.fst) h.size := by
  have hmod : (index + bytes.length) % sizeLimit = index + bytes.length := Nat.mod_eq_of_lt hlimit
  by_cases hd : h.data = none
  · exact ⟨H, h, B, by simp [Buffer.putnEc, a.dataOf, hd], .refl H, a, rfl⟩
  · by_cases hi : h.size ≤ index + bytes.length
    · exact ⟨H, h, B, by simp [Buffer.putnEc, a.dataOf, hd, a.sizeOf, hmod, hi], .refl H, a, rfl⟩
    · have hdoes : Does i H (put H i index bytes) h.size := a.does_put (by omega)
      obtain ⟨H', h', B', hput, c, a', hsize⟩ := hdoes
      exact ⟨H', h', B', by simp [Buffer.putnEc, a.dataOf, hd, a.sizeOf, hmod, hi, hput], c, a',
        hsize⟩

/-! ## The range of a handle -/

theorem Sits.shrink (s : Sits h B) {n : Nat} (hn : n ≤ h.size) : Sits { h with size := n } B :=
  ⟨within_of_le s.within hn, s.null⟩

/-- The handle's range moves within its block. -/
theorem At.rebind (a : At H i h B) {h' : Handle} (s : Sits h' B) (hblk : h'.blk = h.blk) :
    Change i H (H.setBuf i (some h')) ∧ At (H.setBuf i (some h')) i h' B :=
  ⟨.rebind a hblk s, a.slot, setBuf_bufs_self _ _, by rw [hblk]; exact a.blk, s⟩

theorem At.setSize (a : At H i h B) {n : Nat} (hn : n ≤ h.size) :
    Change i H (setSize H i n) ∧ At (setSize H i n) i { h with size := n } B := by
  have heq : Buffer.setSize H i n = H.setBuf i (some { h with size := n }) := by
    simp [Buffer.setSize, a.buf]
  rw [heq]
  exact a.rebind (a.sits.shrink hn) rfl

/-- Every block is still there, as long as it was and in the same place. -/
def Shape (H H' : Heap) : Prop :=
  ∀ b B, H.blks b = some B →
    ∃ B', H'.blks b = some B' ∧ B'.mem.length = B.mem.length ∧ B'.gen = B.gen

theorem Shape.refl (H : Heap) : Shape H H := fun _ B hB => ⟨B, hB, rfl, rfl⟩

theorem shape_setBlk {b : Nat} {B' : Block UInt8 Policy} (hb : H.blks b = some B)
    (hlen : B'.mem.length = B.mem.length) (hgen : B'.gen = B.gen) :
    Shape H (H.setBlk b (some B')) := by
  intro c C hC
  by_cases hc : c = b
  · subst hc
    rw [hb] at hC
    obtain rfl := Option.some.inj hC
    exact ⟨B', setBlk_blks_self _ _ _, hlen, hgen⟩
  · exact ⟨C, by rw [setBlk_blks_ne _ _ hc, hC], rfl, rfl⟩

/-- The range of the handle begins where its block does, or the handle is null. -/
def Leads (h : Handle) (B : Block UInt8 Policy) : Prop :=
  h.data = none ∨ h.data = some ⟨h.blk, B.gen, 0⟩

theorem At.normalize (a : At H i h B) (hw : Writable B) :
    ∃ H' h' B', normalize H i = some H' ∧ Change i H H' ∧ At H' i h' B' ∧ h'.size = h.size ∧
      Leads h' B' ∧ B'.mem.length = B.mem.length ∧ B'.refs = B.refs ∧ B'.tag = B.tag ∧
      Shape H H' := by
  rcases a.sits.cases with ⟨hd, -, -⟩ | ⟨off, hd, hle, hmem⟩
  · exact ⟨H, h, B, by simp [Buffer.normalize, a.buf, a.blk, hd], .refl H, a, rfl, Or.inl hd, rfl,
      rfl, rfl, .refl H⟩
  · by_cases hoff : 0 < off
    · obtain ⟨c, hc, hlen⟩ := a.content
      have hfits : 0 + c.length ≤ B.mem.length := by omega
      obtain ⟨B', hwrite, hstore, a', hlen', hgen, hrefs, htag⟩ := a.store hw hfits
      have hdata : B.data h.blk = some ⟨h.blk, B.gen, 0⟩ := if_neg hmem
      have hmem' : B'.mem ≠ [] := by
        intro hnil
        rw [hnil] at hlen'
        exact hmem (List.eq_nil_of_length_eq_zero hlen'.symm)
      have hsits : Sits { h with data := B.data h.blk } B' := by
        refine ⟨?_, fun hnil => absurd hnil hmem'⟩
        simp only [Handle.Within, hdata]
        exact ⟨trivial, hgen.symm, by omega⟩
      obtain ⟨hbind, a''⟩ := a'.rebind hsits rfl
      refine ⟨_, _, B', ?_, hstore.trans hbind, a'', rfl, Or.inr ?_, hlen', hrefs, htag,
        shape_setBlk a.blk hlen' hgen⟩
      · simp [Buffer.normalize, a.buf, a.blk, hd, hoff, hc, hdata, hwrite]
      · rw [hgen]
        exact hdata
    · obtain rfl : off = 0 := by omega
      exact ⟨H, h, B, by simp [Buffer.normalize, a.buf, a.blk, hd], .refl H, a, rfl, Or.inr hd, rfl,
        rfl, rfl, .refl H⟩

/-- A handle at the start of its block may see as much of it as there is. -/
theorem Sits.widen (s : Sits h B) (hl : Leads h B) {n : Nat} (hn : n ≤ B.mem.length) :
    Sits { h with size := n } B := by
  refine ⟨?_, s.null⟩
  rcases s.cases with ⟨hd, -, hmem⟩ | ⟨off, hd, -, -⟩
  · simp only [Handle.Within, hd]
    rw [hmem, List.length_nil] at hn
    exact ⟨by omega, hmem⟩
  · rcases hl with hnone | hzero
    · rw [hd] at hnone
      cases hnone
    · simp only [Handle.Within, hzero]
      exact ⟨trivial, trivial, by omega⟩

theorem At.does_size (junk : Nat → Nat → UInt8) (a : At H i h B) {n : Nat}
    (hfits : Writable B → B.refs = 1 ∨ n ≤ B.mem.length) : Does i H (size junk H i n) n := by
  by_cases hn : n ≤ h.size
  · obtain ⟨c, a'⟩ := a.rebind (a.sits.shrink hn) rfl
    exact ⟨_, _, B, by simp [Buffer.size, a.buf, hn], c, a', rfl⟩
  · by_cases hw : Writable B
    · obtain ⟨H₁, h₁, B₁, hnorm, c, a₁, hsize, hleads, hlen, hrefs, htag, -⟩ := a.normalize hw
      by_cases hgrow : B₁.mem.length < n
      · have hone : B₁.refs = 1 := by
          rw [hrefs]
          exact (hfits hw).resolve_right (by omega)
        let pad := malloc junk H₁.next (n - B₁.mem.length)
        have hpad : n = B₁.mem.length + pad.length := by
          rw [length_malloc]
          omega
        let B' : Block UInt8 Policy := { B₁ with mem := B₁.mem ++ pad, gen := B₁.gen + 1 }
        have hsits : Sits ⟨h₁.blk, B'.data h₁.blk, n⟩ B' := by
          rw [show n = B'.mem.length by simp [B', hpad]]
          exact sits_data _ _
        refine ⟨_, ⟨h₁.blk, B'.data h₁.blk, n⟩, B', ?_, c.trans (.grow a₁ hone hpad), ?_, rfl⟩
        · simp only [Buffer.size, a.buf, Option.bind_eq_bind, Option.bind_some, hn, if_false,
            a.isWritable, hw, decide_true, if_true, hnorm, a₁.buf, a₁.blk, hgrow]
          rfl
        · refine ⟨?_, setBuf_bufs_self _ _, ?_, hsits⟩
          · simp only [RefHeap.grow, a₁.blk]
            exact a₁.slot
          · simp only [RefHeap.grow, a₁.blk]
            exact setBlk_blks_self _ _ _
      · obtain ⟨c', a'⟩ := a₁.rebind (a₁.sits.widen hleads (Nat.le_of_not_lt hgrow)) rfl
        refine ⟨_, _, B₁, ?_, c.trans c', a', rfl⟩
        simp [Buffer.size, a.buf, hn, a.isWritable, hw, hnorm, a₁.buf, a₁.blk, hgrow]
    · obtain ⟨bytes, hc, hlen⟩ := a.content
      have hdoes := a.does_replace (splice (malloc junk H.next n) 0 bytes)
      rw [length_splice _ _ _ (by rw [length_malloc]; omega), length_malloc] at hdoes
      simpa [Buffer.size, a.buf, hn, a.isWritable, hw, hc] using hdoes

theorem At.does_assign (junk : Nat → Nat → UInt8) (a : At H i h B) {data : List UInt8}
    (hfits : data ≠ [] → Writable B → data.length ≤ B.mem.length) :
    Does i H (assign junk H i data) data.length := by
  by_cases hdata : data = []
  · obtain ⟨c, a'⟩ := a.setSize (Nat.zero_le h.size)
    exact ⟨_, _, B, by simp [Buffer.assign, hdata], c, a', by simp [hdata]⟩
  · by_cases hw : Writable B
    · have hle := hfits hdata hw
      have hmem : B.mem ≠ [] := by
        intro hnil
        rw [hnil, List.length_nil] at hle
        exact hdata (List.eq_nil_of_length_eq_zero (by omega))
      have hptr : B.data h.blk = some ⟨h.blk, B.gen, 0⟩ := if_neg hmem
      obtain ⟨B', hwrite, c, a', hlen, hgen, -⟩ := a.store hw (show 0 + data.length ≤ _ by omega)
      have hsits : Sits ⟨h.blk, B.data h.blk, data.length⟩ B' := by
        refine ⟨?_, ?_⟩
        · simp only [Handle.Within, hptr]
          exact ⟨trivial, hgen.symm, by omega⟩
        · intro hnil
          rw [hnil] at hlen
          exact absurd (List.eq_nil_of_length_eq_zero hlen.symm) hmem
      obtain ⟨c', a''⟩ := a'.rebind hsits rfl
      refine ⟨_, _, B', ?_, c.trans c', a'', rfl⟩
      simp [Buffer.assign, hdata, a.isWritable, hw, a.buf, a.blk, hle, hptr, hwrite]
    · have hdoes := a.does_replace data
      simpa [Buffer.assign, hdata, a.isWritable, hw] using hdoes

/-! ## Appending -/

/-- The bytes of the source can be read. -/
def Source.Ready (H : Heap) : Source → Prop
  | .bytes _ => True
  | .range none n => n = 0
  | .range (some p) n => ∃ B, H.blks p.blk = some B ∧ p.gen = B.gen ∧ p.off + n ≤ B.mem.length

theorem Source.Ready.read {src : Source} (r : src.Ready H) :
    ∃ bytes, src.read H = some bytes ∧ bytes.length = src.nbytes := by
  cases src with
  | bytes data => exact ⟨data, rfl, rfl⟩
  | range data n =>
    by_cases hn : n = 0
    · exact ⟨[], by simp [Source.read, RefHeap.read, hn], by simp [Source.nbytes, hn]⟩
    · cases data with
      | none => exact absurd r hn
      | some p =>
        obtain ⟨B, hB, hgen, hle⟩ := r
        refine ⟨(B.mem.drop p.off).take n, ?_, ?_⟩
        · simp [Source.read, RefHeap.read, hn, hB, hgen, hle]
        · rw [List.length_take, List.length_drop]
          simp only [Source.nbytes]
          omega

theorem Source.Ready.shape {src : Source} (r : src.Ready H) {H' : Heap} (hs : Shape H H') :
    src.Ready H' := by
  cases src with
  | bytes data => trivial
  | range data n =>
    cases data with
    | none => exact r
    | some p =>
      obtain ⟨B, hB, hgen, hle⟩ := r
      obtain ⟨B', hB', hlen, hgen'⟩ := hs _ B hB
      exact ⟨B', hB', by rw [hgen, hgen'], by omega⟩

/-- The range of a handle that sits in its block is ready to be read. -/
theorem At.ready (a : At H i h B) : (Source.range h.data h.size).Ready H := by
  rcases a.sits.cases with ⟨hd, hsize, -⟩ | ⟨off, hd, hle, -⟩
  · rw [hd]
    exact hsize
  · rw [hd]
    exact ⟨B, a.blk, rfl, hle⟩

theorem At.does_append (junk : Nat → Nat → UInt8) (a : At H i h B) {src : Source}
    (r : src.Ready H)
    (hfits : src.present = true → Writable B → h.size + src.nbytes ≤ B.mem.length) :
    ∃ n, Does i H (append junk H i src) n := by
  by_cases hp : src.present = true
  · by_cases hw : Writable B
    · have hle := hfits hp hw
      obtain ⟨H₁, h₁, B₁, hnorm, c, a₁, hsize, hleads, hlen, hrefs, htag, hshape⟩ := a.normalize hw
      have hw₁ : Writable B₁ := by
        unfold Writable
        rw [hrefs, htag]
        exact hw
      obtain ⟨bytes, hread, hbytes⟩ := (r.shape hshape).read
      have hroom : h₁.size + bytes.length ≤ B₁.mem.length := by omega
      obtain ⟨B', hwrite, c', a', hlen', hgen', -⟩ := a₁.store hw₁ hroom
      have hleads' : Leads h₁ B' := by
        unfold Leads
        rw [hgen']
        exact hleads
      have hwide : Sits { h₁ with size := h₁.size + src.nbytes } B' :=
        a'.sits.widen hleads' (by omega)
      obtain ⟨c'', a''⟩ := a'.rebind hwide rfl
      refine ⟨_, _, _, B', ?_, (c.trans c').trans c'', a'', rfl⟩
      have hno : ¬ B₁.mem.length < h₁.size + src.nbytes := by omega
      simp [Buffer.append, hp, a.isWritable, hw, hnorm, a₁.buf, a₁.blk, hno, hread, hwrite]
    · obtain ⟨front, hfront, -⟩ := a.content
      obtain ⟨back, hback, -⟩ := r.read
      have hdoes := a.does_replace (front ++ back)
      exact ⟨_, by simpa [Buffer.append, hp, a.isWritable, hw, hfront, hback] using hdoes⟩
  · exact ⟨h.size, H, h, B, by simp [Buffer.append, hp], .refl H, a, rfl⟩

/-! ## New handles -/

theorem Change.slots {H' : Heap} (c : Change i H H') : H'.slots = H.slots := by
  induction c with
  | refl => rfl
  | trans _ _ ih ih' => rw [ih', ih]
  | drop hi => exact detach_slots hi
  | attach => rfl
  | share _ _ hB _ _ =>
    rw [share_eq hB]
    rfl
  | rebind => rfl
  | store => rfl
  | grow a _ _ =>
    simp only [RefHeap.grow, a.blk]
    rfl

theorem Change.bufs_ne {H' : Heap} (c : Change i H H') {j : Nat} (hj : j ≠ i) :
    H'.bufs j = H.bufs j := by
  induction c with
  | refl => rfl
  | trans _ _ ih ih' => rw [ih', ih]
  | drop hi => exact detach_bufs_ne hi hj
  | attach bytes _ _ => exact attach_bufs_ne bytes _ hj
  | share _ _ hB _ _ => exact share_bufs_ne hB hj
  | rebind => exact setBuf_bufs_ne _ _ hj
  | store => rfl
  | grow a _ _ =>
    rw [setBuf_bufs_ne _ _ hj]
    simp only [RefHeap.grow, a.blk]
    rfl

/-- A handle on a new block. -/
theorem at_attach {slot : Nat} (hslot : slot < H.slots) (bytes : List UInt8) (pol : Policy) :
    ∃ h B, At (H.attach slot bytes pol) slot h B :=
  ⟨_, _, hslot, attach_bufs bytes pol, attach_blks bytes pol, sits_data _ ⟨bytes, 0, 1, pol⟩⟩

/-- A handle on a block that is already there. -/
theorem at_share {slot : Nat} (hslot : slot < H.slots) (hB : H.blks h.blk = some B)
    (s : Sits h B) : ∃ B', At (H.share slot h) slot h B' := by
  refine ⟨_, ?_, share_bufs hB, share_blks_self hB, s.congr rfl rfl⟩
  rw [share_eq hB]
  exact hslot

theorem Sits.part (s : Sits h B) {offset n : Nat} (hle : offset + n ≤ h.size) :
    Sits ⟨h.blk, h.at offset, n⟩ B := by
  rcases s.cases with ⟨hd, hsize, hmem⟩ | ⟨off, hd, hin, hmem⟩
  · refine ⟨?_, fun _ => by simp [Handle.at, hd]⟩
    simp only [Handle.Within, Handle.at, hd, Option.map_none]
    exact ⟨by omega, hmem⟩
  · refine ⟨?_, fun hnil => absurd hnil hmem⟩
    simp only [Handle.Within, Handle.at, hd, Option.map_some, Ptr.add]
    exact ⟨trivial, trivial, by omega⟩

/-- The operation ends in `H'` with a new handle, made by changes through its own slot. -/
def Makes (H : Heap) (r : Option Heap) : Prop :=
  ∃ H' h' B', r = some H' ∧ Change H.slots H.push H' ∧ At H' H.slots h' B'

theorem makes_attach (hnone : H.bufs H.slots = none) (bytes : List UInt8) :
    Makes H (some (H.push.attach H.slots bytes .copyOnWrite)) := by
  have hslot : H.slots < H.push.slots := Nat.lt_succ_self _
  obtain ⟨h', B', a'⟩ := at_attach hslot bytes .copyOnWrite
  exact ⟨_, h', B', rfl, .attach bytes hslot hnone, a'⟩

theorem At.makes_share (a : At H i h B) (hnone : H.bufs H.slots = none)
    (htag : B.tag ≠ .exclusive) {k : Handle} (hblk : k.blk = h.blk) (s : Sits k B) :
    Makes H (some (H.push.share H.slots k)) := by
  have hslot : H.slots < H.push.slots := Nat.lt_succ_self _
  have hB : H.push.blks k.blk = some B := by
    rw [hblk]
    exact a.blk
  obtain ⟨B', a'⟩ := at_share hslot hB s
  exact ⟨_, k, B', rfl, .share hslot hnone hB htag s, a'⟩

theorem At.makes_adopt (a : At H i h B) (hnone : H.bufs H.slots = none) : Makes H (adopt H i) := by
  by_cases htag : B.tag = .exclusive
  · obtain ⟨bytes, hc, -⟩ := a.content
    simpa [Buffer.adopt, a.buf, a.blk, htag, hc] using makes_attach hnone bytes
  · simpa [Buffer.adopt, a.buf, a.blk, htag] using a.makes_share hnone htag rfl a.sits

theorem At.makes_slice (a : At H i h B) (hnone : H.bufs H.slots = none) (offset len : Nat)
    (forceCopy : Bool) : Makes H (slice H i offset len forceCopy) := by
  set n := if offset < h.size then min len (h.size - offset) else 0 with hn
  by_cases hz : n = 0
  · have hslice : slice H i offset len forceCopy = some (H.push.attach H.slots [] .copyOnWrite) := by
      simp only [Buffer.slice, a.buf, a.blk, Option.bind_eq_bind, Option.bind_some, ← hn, hz,
        if_true]
      rfl
    rw [hslice]
    exact makes_attach hnone []
  · have hle : offset + n ≤ h.size := by
      rw [hn] at hz ⊢
      split_ifs at hz ⊢ <;> omega
    by_cases hcopy : B.tag = .exclusive ∨ forceCopy
    · obtain ⟨bytes, hread, -⟩ := a.read_at hle
      have hslice : slice H i offset len forceCopy =
          some (H.push.attach H.slots bytes .copyOnWrite) := by
        simp only [Buffer.slice, a.buf, a.blk, Option.bind_eq_bind, Option.bind_some, ← hn, hz,
          if_false, hcopy, if_true, hread]
        rfl
      rw [hslice]
      exact makes_attach hnone bytes
    · have hslice : slice H i offset len forceCopy =
          some (H.push.share H.slots ⟨h.blk, h.at offset, n⟩) := by
        simp only [Buffer.slice, a.buf, a.blk, Option.bind_eq_bind, Option.bind_some, ← hn, hz,
          if_false, hcopy]
        rfl
      rw [hslice]
      exact a.makes_share hnone (fun htag => hcopy (Or.inl htag)) rfl (a.sits.part hle)

/-! ## Taking another handle's place -/

/-- An empty slot takes a block that is there: the tail of both assignments and of `clear`. -/
theorem unshare_cases (inv : Inv H) (hslot : i < H.slots) :
    Change i H (unshare H i) ∧ Inv (unshare H i) ∧ (unshare H i).bufs i = none ∧
      i < (unshare H i).slots ∧ ∀ j, j ≠ i → (unshare H i).bufs j = H.bufs j := by
  cases hi : H.bufs i with
  | none =>
    have hself : unshare H i = H := by
      unfold unshare RefHeap.detach
      rw [hi]
    rw [hself]
    exact ⟨.refl H, inv, hi, hslot, fun _ _ => rfl⟩
  | some h =>
    have c : Change i H (unshare H i) := .drop hi
    refine ⟨c, c.inv inv, detach_bufs_self hi, ?_, fun j hj => detach_bufs_ne hi hj⟩
    rw [c.slots]
    exact hslot

theorem does_clear (inv : Inv H) (hslot : i < H.slots) : Does i H (some (clear H i)) 0 := by
  obtain ⟨c, -, hnone, hslot', -⟩ := unshare_cases inv hslot
  refine ⟨_, _, _, rfl, c.trans (.attach [] hslot' hnone), ⟨hslot', attach_bufs _ _, attach_blks _ _,
    sits_data _ ⟨[], 0, 1, .copyOnWrite⟩⟩, rfl⟩

theorem does_copyAssign (inv : Inv H) (hslot : i < H.slots) {j : Nat} {k : Handle}
    (hk : H.bufs j = some k) : ∃ n, Does i H (copyAssign H i j) n := by
  by_cases hij : i = j
  · subst hij
    obtain ⟨B, a⟩ := inv.at hk
    exact ⟨k.size, H, k, B, by simp [Buffer.copyAssign], .refl H, a, rfl⟩
  · obtain ⟨c, inv', hnone, hslot', hbufs⟩ := unshare_cases inv hslot
    rw [← hbufs j (Ne.symm hij)] at hk
    obtain ⟨B, a⟩ := inv'.at hk
    by_cases htag : B.tag = .exclusive
    · obtain ⟨bytes, hc, -⟩ := a.content
      refine ⟨_, _, _, _, ?_, c.trans (.attach bytes hslot' hnone), ⟨hslot', attach_bufs _ _,
        attach_blks _ _, sits_data _ ⟨bytes, 0, 1, .copyOnWrite⟩⟩, rfl⟩
      simp [Buffer.copyAssign, hij, hk, a.blk, htag, hc]
    · obtain ⟨B', a'⟩ := at_share hslot' a.blk a.sits
      refine ⟨_, _, _, B', ?_, c.trans (.share hslot' hnone a.blk htag a.sits), a', rfl⟩
      simp [Buffer.copyAssign, hij, hk, a.blk, htag]

/-- A move hands the block over: the counts do not change. -/
theorem Inv.take (inv : Inv H) (hslot : i < H.slots) (hi : H.bufs i = none) {j : Nat} (hij : i ≠ j) :
    Inv (take H i j) := by
  have hbufs : ∀ m k, (Buffer.take H i j).bufs m = some k →
      ∃ m', H.bufs m' = some k := by
    intro m k hk
    unfold Buffer.take at hk
    by_cases hm : m = j
    · subst hm
      rw [setBuf_bufs_self] at hk
      cases hk
    · rw [setBuf_bufs_ne _ _ hm] at hk
      by_cases hmi : m = i
      · subst hmi
        rw [setBuf_bufs_self] at hk
        exact ⟨j, hk⟩
      · rw [setBuf_bufs_ne _ _ hmi] at hk
        exact ⟨m, hk⟩
  have hcount : ∀ b, (Buffer.take H i j).count b = H.count b := by
    intro b
    have hfst := H.count_setBuf hslot b (H.bufs j)
    rw [hi] at hfst
    by_cases hj : j < H.slots
    · have hsnd := (H.setBuf i (H.bufs j)).count_setBuf hj b none
      rw [setBuf_bufs_ne _ _ (Ne.symm hij)] at hsnd
      simp only [on] at hfst hsnd
      unfold Buffer.take
      omega
    · have hnone : H.bufs j = none := inv.wf.absent j (by omega)
      have hself : Buffer.take H i j = H := by
        unfold Buffer.take RefHeap.setBuf
        rw [hnone]
        congr 1
        funext m
        by_cases hm : m = j
        · subst hm
          simp [hnone]
        · by_cases hmi : m = i
          · subst hmi
            simp [hm, hi]
          · simp [hm, hmi]
      rw [hself]
  refine ⟨⟨inv.wf.fresh, ?_, ?_, ?_, ?_⟩, inv.counted, inv.sole, ?_⟩
  · intro m hm
    change H.slots ≤ m at hm
    unfold Buffer.take
    by_cases hmj : m = j
    · subst hmj
      exact setBuf_bufs_self _ _
    · rw [setBuf_bufs_ne _ _ hmj, setBuf_bufs_ne _ _ (by omega)]
      exact inv.wf.absent m hm
  · intro m k p hk hd
    obtain ⟨m', hm'⟩ := hbufs m k hk
    exact inv.wf.own m' k p hm' hd
  · intro m k hk
    obtain ⟨m', hm'⟩ := hbufs m k hk
    exact inv.wf.live m' k hm'
  · intro b B hB
    rw [hcount]
    exact inv.wf.counted b B hB
  · intro m k hk
    obtain ⟨m', hm'⟩ := hbufs m k hk
    exact inv.seat m' k hm'

/-- `set_policy` is a change, and then a new policy for a block with one handle on it. -/
theorem At.setPolicy (a : At H i h B) (pol : Policy) :
    ∃ H', setPolicy H i pol = some H' ∧ (H' = H ∨
      ∃ H₁ h₁ B₁, Change i H H₁ ∧ At H₁ i h₁ B₁ ∧ B₁.refs = 1 ∧
        H' = H₁.setBlk h₁.blk (some { B₁ with tag := pol })) := by
  by_cases htag : B.tag = pol
  · exact ⟨H, by simp [Buffer.setPolicy, a.isPolicy, htag], Or.inl rfl⟩
  · obtain ⟨H₁, h₁, B₁, hrun, c, a₁, -, hone⟩ := a.forceUnique
    refine ⟨_, ?_, Or.inr ⟨H₁, h₁, B₁, c, a₁, hone, rfl⟩⟩
    simp [Buffer.setPolicy, a.isPolicy, htag, hrun, a₁.buf, a₁.blk]

end Nodeoze.Buffer
