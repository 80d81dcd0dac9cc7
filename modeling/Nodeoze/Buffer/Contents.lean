import Nodeoze.Buffer.Representation

/-!
# What appending and assigning leave in a buffer

In a heap whose handles sit in their blocks, `append` and `assign` do what they are for except in the
branch that reallocates: there `m_data` and `m_size` are not read back from the block, so the bytes
never come into the view of the handle, and what it showed is behind a pointer that dangles.
-/

namespace Nodeoze.Buffer

open RefHeap Splice

/-- The operation returns, and leaves the handle with exactly these bytes. -/
def Shows (r : Option Heap) (i : Nat) (c : List UInt8) : Prop :=
  ∃ H', r = some H' ∧ H'.content i = some c ∧ sizeOf H' i = c.length

/-- None of the bytes are in block `b`. -/
def Source.Apart (b : Nat) : Source → Prop
  | .bytes _ => True
  | .range none _ => True
  | .range (some p) _ => p.blk ≠ b

section

variable {H H' : Heap} {i : Nat} {h : Handle} {B : Block UInt8 Policy} {c x : List UInt8} {src : Source}

theorem wf_guarded (wf : H.WF fun _ => True) : H.WF guarded where
  fresh := wf.fresh
  absent := wf.absent
  own := wf.own
  live := by
    intro i h hi
    obtain ⟨B, hB, hin⟩ := wf.live i h hi
    exact ⟨B, hB, fun _ => hin trivial⟩
  counted := wf.counted

/-- Every handle shows something. -/
theorem Inv.owned (inv : Inv H) (hi : H.bufs i = some h) :
    ∃ B c, Owned H i h B c ∧ Sits h B := by
  obtain ⟨B, a⟩ := inv.at hi
  obtain ⟨c, hc, -⟩ := a.content
  exact ⟨B, c, ⟨wf_guarded inv.wf, hi, a.blk, a.sits.within, hc⟩, a.sits⟩

theorem sizeOf_eq (hi : H.bufs i = some h) : sizeOf H i = h.size := by
  simp [sizeOf, hi]

theorem Owned.shows (o : Owned H i h B c) : Shows (some H) i c :=
  ⟨H, rfl, o.content, by rw [sizeOf_eq o.buf, o.length]⟩

/-- A handle at the start of its block shows the front of it. -/
theorem content_front (hi : H.bufs i = some h) (hB : H.blks h.blk = some B)
    (hdata : h.data = none ∧ h.size = 0 ∨ h.data = some ⟨h.blk, B.gen, 0⟩)
    (hle : h.size ≤ B.mem.length) : H.content i = some (B.mem.take h.size) := by
  by_cases hz : h.size = 0
  · simp [RefHeap.content, hi, RefHeap.read, hz]
  · rcases hdata with ⟨-, hzero⟩ | hptr
    · exact absurd hzero hz
    · simp [RefHeap.content, hi, RefHeap.read, hz, hptr, hB, hle]

/-- A handle on a block that has been moved shows nothing any more. -/
theorem not_shows_moved (hi : H.bufs i = some h) (hB : H.blks h.blk = some B)
    (hown : ∀ p, h.data = some p → p.blk = h.blk ∧ p.gen ≠ B.gen) (hc : c ≠ []) :
    H.content i ≠ some c := by
  intro hcontent
  have hread : H.read h.data h.size = some c := by
    simpa [RefHeap.content, hi] using hcontent
  by_cases hz : h.size = 0
  · simp [RefHeap.read, hz] at hread
    exact hc hread
  · rcases hd : h.data with _ | p
    · simp [RefHeap.read, hz, hd] at hread
    · obtain ⟨hblk, hgen⟩ := hown p hd
      simp [RefHeap.read, hz, hd, hblk, hB, hgen] at hread

/-- What is read from another block is not touched. -/
theorem Source.read_congr (hapart : src.Apart h.blk)
    (hblks : ∀ b, b ≠ h.blk → H'.blks b = H.blks b) : src.read H' = src.read H := by
  rcases src with data | ⟨_ | p, n⟩
  · rfl
  · rfl
  · exact RefHeap.read_congr (hblks p.blk hapart)

theorem Source.length_read (hread : src.read H = some x) : x.length = src.nbytes := by
  rcases src with data | ⟨p, n⟩
  · rw [Option.some.inj hread]
    rfl
  · show x.length = n
    by_cases hn : n = 0
    · have hnil : [] = x := by simpa [Source.read, RefHeap.read, hn] using hread
      rw [← hnil, hn]
      rfl
    · rcases p with _ | p
      · simp [Source.read, RefHeap.read, hn] at hread
      · rcases hB : H.blks p.blk with _ | B
        · simp [Source.read, RefHeap.read, hn, hB] at hread
        · by_cases hin : p.gen = B.gen ∧ p.off + n ≤ B.mem.length
          · have hx : (B.mem.drop p.off).take n = x := by
              simpa [Source.read, RefHeap.read, hn, hB, hin] using hread
            rw [← hx, List.length_take, List.length_drop]
            omega
          · simp [Source.read, RefHeap.read, hn, hB, hin] at hread

theorem Source.present_iff (hread : src.read H = some x) : src.present = true ↔ x ≠ [] := by
  have hlen := Source.length_read hread
  rcases src with data | ⟨_ | p, n⟩
  · obtain rfl := Option.some.inj hread
    simp [Source.present]
  · have hn : n = 0 := by
      by_contra hn
      simp [Source.read, RefHeap.read, hn] at hread
    have hnil : x = [] := List.eq_nil_of_length_eq_zero (hlen.trans hn)
    simp [Source.present, hnil]
  · rw [← List.length_pos_iff, hlen]
    simp [Source.present, Source.nbytes]

theorem write_blks_ne {p : Option Ptr} {bs : List UInt8} (hw : H.write p bs = some H') {b : Nat}
    (hp : ∀ q, p = some q → q.blk ≠ b) : H'.blks b = H.blks b := by
  by_cases hbs : bs = []
  · have hsame : H = H' := by simpa [RefHeap.write, hbs] using hw
    rw [hsame]
  · rcases p with _ | q
    · simp [RefHeap.write, hbs] at hw
    · rcases hB : H.blks q.blk with _ | B
      · simp [RefHeap.write, hbs, hB] at hw
      · by_cases hin : q.gen = B.gen ∧ q.off + bs.length ≤ B.mem.length
        · have hset : H.setBlk q.blk (some { B with mem := splice B.mem q.off bs }) = H' := by
            simpa [RefHeap.write, hbs, hB, hin] using hw
          rw [← hset]
          exact setBlk_blks_ne _ _ (Ne.symm (hp q rfl))
        · simp [RefHeap.write, hbs, hB, hin] at hw

/-- `normalize` moves the range of the handle and leaves the other blocks alone. -/
theorem Owned.normalize_keeps (o : Owned H i h B c) (hnorm : Buffer.normalize H i = some H') :
    (∃ p, H'.bufs i = some { h with data := p }) ∧ ∀ b, b ≠ h.blk → H'.blks b = H.blks b := by
  rcases hd : h.data with _ | p
  · have hsame : H = H' := by simpa [Buffer.normalize, o.buf, o.blk, hd] using hnorm
    rw [← hsame]
    exact ⟨⟨h.data, o.buf⟩, fun _ _ => rfl⟩
  · by_cases hoff : 0 < p.off
    · rcases hw : H.write (B.data h.blk) c with _ | H₁
      · simp [Buffer.normalize, o.buf, o.blk, hd, hoff, o.content, hw] at hnorm
      · have hset : H₁.setBuf i (some { h with data := B.data h.blk }) = H' := by
          simpa [Buffer.normalize, o.buf, o.blk, hd, hoff, o.content, hw] using hnorm
        rw [← hset]
        refine ⟨⟨_, setBuf_bufs_self _ _⟩, fun b hb => ?_⟩
        refine write_blks_ne hw ?_
        intro q hq
        rw [data_blk hq]
        exact Ne.symm hb
    · have hsame : H = H' := by simpa [Buffer.normalize, o.buf, o.blk, hd, hoff] using hnorm
      rw [← hsame]
      exact ⟨⟨h.data, o.buf⟩, fun _ _ => rfl⟩

/-- The handle after `normalize`: it shows the front of its block. -/
theorem Owned.leads (o : Owned H i h B c) (s : Sits h B) (hw : Writable B) :
    ∃ H₁ p B₁, Buffer.normalize H i = some H₁ ∧ Owned H₁ i { h with data := p } B₁ c ∧
      (p = none ∧ h.size = 0 ∨ p = some ⟨h.blk, B₁.gen, 0⟩) ∧ c = B₁.mem.take h.size ∧
      B₁.mem.length = B.mem.length ∧ ∀ b, b ≠ h.blk → H₁.blks b = H.blks b := by
  obtain ⟨H₁, h₁, B₁, hnorm, o₁, -⟩ := o.normalize hw
  have a : At H i h B := ⟨o.wf.lt_slots o.buf, o.buf, o.blk, s⟩
  obtain ⟨H₂, h₂, B₂, hnorm', -, a₂, -, hleads, hlen, -⟩ := a.normalize hw
  obtain rfl : H₁ = H₂ := Option.some.inj (hnorm.symm.trans hnorm')
  obtain rfl : h₁ = h₂ := Option.some.inj (o₁.buf.symm.trans a₂.buf)
  obtain rfl : B₁ = B₂ := Option.some.inj (o₁.blk.symm.trans a₂.blk)
  obtain ⟨⟨p, hp⟩, hblks⟩ := o.normalize_keeps hnorm
  obtain rfl : h₁ = { h with data := p } := Option.some.inj (o₁.buf.symm.trans hp)
  have hfront : p = none ∧ h.size = 0 ∨ p = some ⟨h.blk, B₁.gen, 0⟩ := by
    refine hleads.imp_left fun hnone => ⟨hnone, ?_⟩
    have hin := o₁.within
    rw [Handle.Within, hnone] at hin
    exact hin.1
  refine ⟨H₁, p, B₁, hnorm, o₁, hfront, ?_, hlen, hblks⟩
  have hcontent := content_front o₁.buf o₁.blk hfront o₁.size_le
  exact Option.some.inj (o₁.content.symm.trans hcontent)

variable (junk : Nat → Nat → UInt8)

/-- Where there is room in the block, the bytes are put behind the range of the handle. -/
theorem Owned.append_room (o : Owned H i h B c) (s : Sits h B) (hw : Writable B) (hx : x ≠ [])
    (hread : src.read H = some x) (hapart : src.Apart h.blk)
    (hroom : h.size + x.length ≤ B.mem.length) : Shows (append junk H i src) i (c ++ x) := by
  obtain ⟨H₁, p, B₁, hnorm, o₁, hfront, hc, hlen, hblks⟩ := o.leads s hw
  have hpresent := (Source.present_iff hread).mpr hx
  have hsize := Source.length_read hread
  have hread₁ : src.read H₁ = some x := by rw [Source.read_congr hapart hblks, hread]
  have hin : h.size + x.length ≤ B₁.mem.length := by omega
  have hno : ¬ B₁.mem.length < h.size + x.length := by omega
  have hwrite := write_blk o₁.blk hin
  let B₂ : Block UInt8 Policy := { B₁ with mem := splice B₁.mem h.size x }
  let h₂ : Handle := ⟨h.blk, p, h.size + x.length⟩
  refine ⟨(H₁.setBlk h.blk (some B₂)).setBuf i (some h₂), ?_, ?_, ?_⟩
  · simp [Buffer.append, hpresent, o.isWritable, hw, hnorm, o₁.buf, o₁.blk, hno, hread₁, hwrite,
      ← hsize, B₂, h₂]
  · have hfront₂ : h₂.data = none ∧ h₂.size = 0 ∨ h₂.data = some ⟨h₂.blk, B₂.gen, 0⟩ := by
      refine Or.inr (hfront.resolve_left ?_)
      rintro ⟨hnone, hzero⟩
      -- a null handle is on a block without room
      have hin₁ := o₁.within
      rw [Handle.Within, hnone] at hin₁
      have hnil : B₁.mem.length = 0 := by rw [hin₁.2, List.length_nil]
      exact hx (List.eq_nil_of_length_eq_zero (by omega))
    have hlen₂ : B₂.mem.length = B₁.mem.length := length_splice _ _ _ hin
    have hcontent : ((H₁.setBlk h.blk (some B₂)).setBuf i (some h₂)).content i =
        some (B₂.mem.take h₂.size) :=
      content_front (setBuf_bufs_self _ _) (setBlk_blks_self _ _ _) hfront₂ (by
        show h.size + x.length ≤ _
        omega)
    rw [hcontent]
    show some ((splice B₁.mem h.size x).take (h.size + x.length)) = some (c ++ x)
    rw [take_splice _ _ _ (by omega), hc]
  · rw [sizeOf_eq (setBuf_bufs_self _ _), List.length_append, o.length]

/-- On a block that others are on too, the bytes go to a new block. -/
theorem Owned.append_shared (o : Owned H i h B c) (hw : ¬Writable B) (hx : x ≠ [])
    (hread : src.read H = some x) : Shows (append junk H i src) i (c ++ x) := by
  have hpresent := (Source.present_iff hread).mpr hx
  obtain ⟨h', B', o', -⟩ := o.replace (c ++ x) .copyOnWrite
  obtain ⟨H', hsome, hshows⟩ := o'.shows
  obtain rfl := Option.some.inj hsome
  refine ⟨_, ?_, hshows⟩
  simp [Buffer.append, hpresent, o.isWritable, hw, o.content, hread]

/-- Where the block has to grow, the handle keeps its pointer and its size. -/
theorem Owned.append_grown (o : Owned H i h B c) (s : Sits h B) (hw : Writable B) (hx : x ≠ [])
    (hread : src.read H = some x) (hapart : src.Apart h.blk)
    (hfull : B.mem.length < h.size + x.length) : ¬Shows (append junk H i src) i (c ++ x) := by
  obtain ⟨H₁, p, B₁, hnorm, o₁, hfront, -, hlen, hblks⟩ := o.leads s hw
  have hpresent := (Source.present_iff hread).mpr hx
  have hsize := Source.length_read hread
  have hgrow : B₁.mem.length < h.size + x.length := by omega
  let pad := malloc junk H₁.next (h.size + x.length - B₁.mem.length)
  let B₂ : Block UInt8 Policy := { B₁ with mem := B₁.mem ++ pad, gen := B₁.gen + 1 }
  have hB₂ : (H₁.grow h.blk pad).blks h.blk = some B₂ := by
    simp only [RefHeap.grow, o₁.blk]
    exact setBlk_blks_self _ _ _
  have hread₂ : src.read (H₁.grow h.blk pad) = some x := by
    have hother : ∀ b, b ≠ h.blk → (H₁.grow h.blk pad).blks b = H.blks b := by
      intro b hb
      rw [← hblks b hb]
      simp only [RefHeap.grow, o₁.blk]
      exact setBlk_blks_ne _ _ hb
    rw [Source.read_congr hapart hother, hread]
  have hin : h.size + x.length ≤ B₂.mem.length := by
    show _ ≤ (B₁.mem ++ malloc junk H₁.next _).length
    rw [List.length_append, length_malloc]
    omega
  have hwrite := write_blk hB₂ hin
  have happend : append junk H i src = some ((H₁.grow h.blk pad).setBlk h.blk
      (some { B₂ with mem := splice B₂.mem h.size x })) := by
    simp [Buffer.append, hpresent, o.isWritable, hw, hnorm, o₁.buf, o₁.blk, ← hsize, hgrow, pad,
      hread₂, hwrite, B₂]
  rintro ⟨H', hsome, hcontent, -⟩
  rw [happend] at hsome
  obtain rfl := Option.some.inj hsome
  refine not_shows_moved (h := { h with data := p }) ?_ (setBlk_blks_self _ _ _) ?_ ?_ hcontent
  · simp only [RefHeap.grow, o₁.blk]
    exact o₁.buf
  · intro q hq
    have hq' : p = some q := hq
    rcases hfront with ⟨hnone, -⟩ | hptr
    · rw [hnone] at hq'
      cases hq'
    · rw [hptr] at hq'
      obtain rfl := Option.some.inj hq'
      exact ⟨rfl, (Nat.lt_succ_self B₁.gen).ne⟩
  · intro hnil
    exact hx (List.append_eq_nil_iff.mp hnil).2

theorem fits_iff {size n : Nat} :
    fits B size n = true ↔ n = 0 ∨ ¬Writable B ∨ size + n ≤ B.mem.length := by
  simp [fits, or_assoc]

theorem Owned.append_iff (o : Owned H i h B c) (s : Sits h B) (hread : src.read H = some x)
    (hapart : src.Apart h.blk) :
    Shows (append junk H i src) i (c ++ x) ↔ fits B h.size x.length = true := by
  rw [fits_iff]
  by_cases hx : x = []
  · have hpresent : src.present = false := by
      rw [← Bool.not_eq_true, Source.present_iff hread, not_not]
      exact hx
    have hsame : append junk H i src = some H := by simp [Buffer.append, hpresent]
    rw [hsame, hx, List.append_nil]
    exact iff_of_true o.shows (Or.inl rfl)
  · have hlen : x.length ≠ 0 := fun hzero => hx (List.eq_nil_of_length_eq_zero hzero)
    by_cases hw : Writable B
    · by_cases hroom : h.size + x.length ≤ B.mem.length
      · exact iff_of_true (o.append_room junk s hw hx hread hapart hroom) (Or.inr (Or.inr hroom))
      · refine iff_of_false (o.append_grown junk s hw hx hread hapart (by omega)) ?_
        rintro (hzero | hshared | hle)
        · exact hlen hzero
        · exact hshared hw
        · exact hroom hle
    · exact iff_of_true (o.append_shared junk hw hx hread) (Or.inr (Or.inl hw))

/-! ### Assigning -/

/-- The handle sees only the front of its range. -/
theorem Owned.cut (o : Owned H i h B c) (s : Sits h B) {n : Nat} (hn : n ≤ h.size) :
    Owned (setSize H i n) i { h with size := n } B (c.take n) ∧ Sits { h with size := n } B := by
  obtain ⟨c', o', hlen, htake⟩ := o.resize (Or.inl hn)
  have hset : setSize H i n = H.setBuf i (some { h with size := n }) := by simp [setSize, o.buf]
  have hc : c' = c.take n := by rw [← htake, List.take_of_length_le (by omega)]
  rw [hset, ← hc]
  exact ⟨o', s.shrink hn⟩

/-- Where there is room in the block, the bytes are put at its front. -/
theorem Owned.assign_room (o : Owned H i h B c) {x : List UInt8} (hx : x ≠ []) (hw : Writable B)
    (hroom : x.length ≤ B.mem.length) : Shows (assign junk H i x) i x := by
  have hmem : B.mem ≠ [] := by
    intro hnil
    rw [hnil, List.length_nil] at hroom
    exact hx (List.eq_nil_of_length_eq_zero (Nat.le_zero.mp hroom))
  have hptr : B.data h.blk = some ⟨h.blk, B.gen, 0⟩ := if_neg hmem
  have hin : 0 + x.length ≤ B.mem.length := by omega
  have hwrite := write_blk o.blk hin
  let B₁ : Block UInt8 Policy := { B with mem := splice B.mem 0 x }
  let h₁ : Handle := ⟨h.blk, B.data h.blk, x.length⟩
  have hlen₁ : B₁.mem.length = B.mem.length := length_splice _ _ _ hin
  refine ⟨(H.setBlk h.blk (some B₁)).setBuf i (some h₁), ?_, ?_, ?_⟩
  · simp [Buffer.assign, hx, o.isWritable, hw, o.buf, o.blk, hroom, hptr, hwrite, B₁, h₁]
  · have hcontent : ((H.setBlk h.blk (some B₁)).setBuf i (some h₁)).content i =
        some (B₁.mem.take h₁.size) :=
      content_front (setBuf_bufs_self _ _) (setBlk_blks_self _ _ _) (Or.inr hptr) (by
        show x.length ≤ _
        omega)
    rw [hcontent]
    exact congrArg some (splice_zero_take _ _)
  · rw [sizeOf_eq (setBuf_bufs_self _ _)]

/-- On a block that others are on too, the bytes go to a new block. -/
theorem Owned.assign_shared (o : Owned H i h B c) {x : List UInt8} (hx : x ≠ []) (hw : ¬Writable B) :
    Shows (assign junk H i x) i x := by
  obtain ⟨h', B', o', -⟩ := o.replace x .copyOnWrite
  obtain ⟨H', hsome, hshows⟩ := o'.shows
  obtain rfl := Option.some.inj hsome
  exact ⟨_, by simp [Buffer.assign, hx, o.isWritable, hw], hshows⟩

/-- Where the block has to grow, the handle is left with the size 0. -/
theorem Owned.assign_grown (o : Owned H i h B c) (s : Sits h B) {x : List UInt8} (hx : x ≠ [])
    (hw : Writable B) (hfull : ¬x.length ≤ B.mem.length) : ¬Shows (assign junk H i x) i x := by
  rintro ⟨H', hsome, -, hsize⟩
  let pad := malloc junk H.next (x.length - B.mem.length)
  have hassign : assign junk H i x = some ((setSize H i 0).grow h.blk pad) := by
    simp [Buffer.assign, hx, o.isWritable, hw, o.buf, o.blk, hfull, pad]
  rw [hassign] at hsome
  obtain rfl := Option.some.inj hsome
  have hbuf : ((setSize H i 0).grow h.blk pad).bufs i = some { h with size := 0 } := by
    have o₀ := (o.cut s (Nat.zero_le _)).1
    simp only [RefHeap.grow, o₀.blk]
    exact o₀.buf
  rw [sizeOf_eq hbuf] at hsize
  exact hx (List.eq_nil_of_length_eq_zero hsize.symm)

theorem Owned.assign_iff (o : Owned H i h B c) (s : Sits h B) (x : List UInt8) :
    Shows (assign junk H i x) i x ↔ fits B 0 x.length = true := by
  rw [fits_iff, Nat.zero_add]
  by_cases hx : x = []
  · subst hx
    have hcut : assign junk H i [] = some (setSize H i 0) := by simp [Buffer.assign]
    rw [hcut]
    exact iff_of_true (o.cut s (Nat.zero_le _)).1.shows (Or.inl rfl)
  · have hlen : x.length ≠ 0 := fun hzero => hx (List.eq_nil_of_length_eq_zero hzero)
    by_cases hw : Writable B
    · by_cases hroom : x.length ≤ B.mem.length
      · exact iff_of_true (o.assign_room junk hx hw hroom) (Or.inr (Or.inr hroom))
      · refine iff_of_false (o.assign_grown junk s hx hw hroom) ?_
        rintro (hzero | hshared | hle)
        · exact hlen hzero
        · exact hshared hw
        · exact hroom hle
    · exact iff_of_true (o.assign_shared junk hx hw) (Or.inr (Or.inl hw))

theorem Owned.assignAt_iff (o : Owned H i h B c) (s : Sits h B) (hread : src.read H = some x)
    (hapart : src.Apart h.blk) (pos : Nat) :
    Shows (assignAt junk H i src pos) i (c.take pos ++ x) ↔
      fits B (min pos h.size) x.length = true := by
  obtain ⟨o', s'⟩ := o.cut s (min_le_right pos h.size)
  have hread' : src.read (setSize H i (min pos h.size)) = some x := by
    have hsame : ∀ b, b ≠ h.blk → (setSize H i (min pos h.size)).blks b = H.blks b := by
      intro b _
      simp [setSize, o.buf, RefHeap.setBuf]
    rw [Source.read_congr hapart hsame, hread]
  have hfront : c.take (min pos h.size) = c.take pos := by
    rw [← o.length, List.take_eq_take_iff]
    omega
  have hiff := o'.append_iff junk s' hread' hapart
  rw [hfront] at hiff
  rw [assignAt, sizeOf_eq o.buf]
  exact hiff

end

/-! ## In every run -/

section

variable (junk : Nat → Nat → UInt8)

/-- What an allowed run reaches. -/
theorem inv_of_run {ops : List Op} (hallow : allowsRun junk RefHeap.empty ops = true) :
    ∃ H, run junk RefHeap.empty ops = some H ∧ Inv H := by
  obtain ⟨H, hrun, inv⟩ := Inv.empty.run junk hallow ops.length
  rw [List.take_length] at hrun
  exact ⟨H, hrun, inv⟩

/-- After any allowed run, `append` concatenates if and only if the block need not be reallocated. -/
theorem append_concatenates (ops : List Op) (hallow : allowsRun junk RefHeap.empty ops = true) :
    ∃ H, run junk RefHeap.empty ops = some H ∧ ∀ i h, H.bufs i = some h →
      ∃ B c, H.blks h.blk = some B ∧ H.content i = some c ∧ c.length = sizeOf H i ∧
        ∀ src x, src.read H = some x → src.Apart h.blk →
          (Shows (append junk H i src) i (c ++ x) ↔
            x = [] ∨ ¬Writable B ∨ h.size + x.length ≤ B.mem.length) := by
  obtain ⟨H, hrun, inv⟩ := inv_of_run junk hallow
  refine ⟨H, hrun, fun i h hi => ?_⟩
  obtain ⟨B, c, o, s⟩ := inv.owned hi
  refine ⟨B, c, o.blk, o.content, by rw [o.length, sizeOf_eq hi], fun src x hread hapart => ?_⟩
  rw [o.append_iff junk s hread hapart, fits_iff, List.length_eq_zero_iff]

/-- A buffer with spare room, a slice in the middle of it, and a buffer on a block of its own. -/
def sliceRun : List Op :=
  [.construct [1, 2, 3, 4] .copyOnWrite, .slice 0 1 2 false, .construct [5, 6, 7] .copyOnWrite, .size 2 1]

theorem append_concatenates_sliceRun :
    ∃ H, run (fun _ _ => 0) RefHeap.empty sliceRun = some H ∧
      Shows (append (fun _ _ => 0) H 1 (.bytes [8, 9])) 1 [2, 3, 8, 9] ∧
      Shows (append (fun _ _ => 0) H 2 (.range (dataOf H 1) 2)) 2 [5, 2, 3] := by
  obtain ⟨H, hrun, hall⟩ := append_concatenates (fun _ _ => 0) sliceRun (by decide)
  refine ⟨H, hrun, ?_⟩
  obtain rfl := Option.some.inj hrun
  obtain ⟨B₁, c₁, hB₁, hc₁, -, happend₁⟩ := hall 1 _ rfl
  obtain ⟨B₂, c₂, hB₂, hc₂, -, happend₂⟩ := hall 2 _ rfl
  obtain rfl := Option.some.inj hB₁
  obtain rfl := Option.some.inj hc₁
  obtain rfl := Option.some.inj hB₂
  obtain rfl := Option.some.inj hc₂
  refine ⟨(happend₁ (.bytes [8, 9]) [8, 9] rfl trivial).mpr (.inr (.inl ?_)),
    (happend₂ _ [2, 3] rfl ?_).mpr (.inr (.inr ?_))⟩
  · decide
  · exact Nat.zero_ne_add_one 0
  · decide

/-- On a full block that nobody else is on, the handle shows nothing new, and points into memory that was
given back; an empty buffer stays empty. -/
theorem append_lost :
    (∃ H, run (fun _ _ => 0) RefHeap.empty [.construct [1, 2] .copyOnWrite] = some H ∧
      H.content 0 = some [1, 2] ∧ ¬Shows (append (fun _ _ => 0) H 0 (.bytes [3])) 0 [1, 2, 3]) ∧
    ∃ H, run (fun _ _ => 0) RefHeap.empty [.construct [] .copyOnWrite] = some H ∧
      H.content 0 = some [] ∧ Shows (append (fun _ _ => 0) H 0 (.bytes [97])) 0 [] := by
  refine ⟨⟨_, rfl, rfl, ?_⟩, ⟨_, rfl, rfl, ⟨_, rfl, rfl, rfl⟩⟩⟩
  rintro ⟨H', hsome, hcontent, -⟩
  obtain rfl := Option.some.inj hsome
  cases hcontent

/-- After any allowed run, `assign` replaces, from the front or from a position on, if and only if the
block need not be reallocated. -/
theorem assign_replaces (ops : List Op) (hallow : allowsRun junk RefHeap.empty ops = true) :
    ∃ H, run junk RefHeap.empty ops = some H ∧ ∀ i h, H.bufs i = some h →
      ∃ B c, H.blks h.blk = some B ∧ H.content i = some c ∧ c.length = sizeOf H i ∧
        (∀ x, Shows (assign junk H i x) i x ↔ x = [] ∨ ¬Writable B ∨ x.length ≤ B.mem.length) ∧
        ∀ src x pos, src.read H = some x → src.Apart h.blk →
          (Shows (assignAt junk H i src pos) i (c.take pos ++ x) ↔
            x = [] ∨ ¬Writable B ∨ min pos h.size + x.length ≤ B.mem.length) := by
  obtain ⟨H, hrun, inv⟩ := inv_of_run junk hallow
  refine ⟨H, hrun, fun i h hi => ?_⟩
  obtain ⟨B, c, o, s⟩ := inv.owned hi
  refine ⟨B, c, o.blk, o.content, by rw [o.length, sizeOf_eq hi], fun x => ?_, ?_⟩
  · rw [o.assign_iff junk s, fits_iff, List.length_eq_zero_iff, Nat.zero_add]
  · intro src x pos hread hapart
    rw [o.assignAt_iff junk s hread hapart, fits_iff, List.length_eq_zero_iff]

theorem assign_replaces_sliceRun :
    ∃ H, run (fun _ _ => 0) RefHeap.empty sliceRun = some H ∧
      Shows (assign (fun _ _ => 0) H 1 [8, 9, 10]) 1 [8, 9, 10] ∧
      Shows (assign (fun _ _ => 0) H 2 [8, 9, 10]) 2 [8, 9, 10] ∧
      Shows (assignAt (fun _ _ => 0) H 0 (.bytes [8, 9]) 3) 0 [1, 2, 3, 8, 9] ∧
      Shows (assignAt (fun _ _ => 0) H 2 (.range (dataOf H 1) 2) 7) 2 [5, 2, 3] := by
  obtain ⟨H, hrun, hall⟩ := assign_replaces (fun _ _ => 0) sliceRun (by decide)
  refine ⟨H, hrun, ?_⟩
  obtain rfl := Option.some.inj hrun
  obtain ⟨B₀, c₀, hB₀, hc₀, -, -, hat₀⟩ := hall 0 _ rfl
  obtain ⟨B₁, c₁, hB₁, hc₁, -, hassign₁, -⟩ := hall 1 _ rfl
  obtain ⟨B₂, c₂, hB₂, hc₂, -, hassign₂, hat₂⟩ := hall 2 _ rfl
  obtain rfl := Option.some.inj hB₀
  obtain rfl := Option.some.inj hc₀
  obtain rfl := Option.some.inj hB₁
  obtain rfl := Option.some.inj hB₂
  obtain rfl := Option.some.inj hc₂
  refine ⟨(hassign₁ _).mpr (.inr (.inl ?_)), (hassign₂ _).mpr (.inr (.inr ?_)),
    (hat₀ (.bytes [8, 9]) [8, 9] 3 rfl trivial).mpr (.inr (.inl ?_)),
    (hat₂ _ [2, 3] 7 rfl ?_).mpr (.inr (.inr ?_))⟩
  · decide
  · decide
  · decide
  · exact Nat.zero_ne_add_one 0
  · decide

/-- On a block that is too small, and that nobody else is on, `assign` leaves the handle without bytes, and
from a position on it leaves what was in front of it. -/
theorem assign_lost :
    ∃ H, run (fun _ _ => 0) RefHeap.empty [.construct [1] .copyOnWrite] = some H ∧
      Shows (assign (fun _ _ => 0) H 0 [2, 3]) 0 [] ∧
      ¬Shows (assign (fun _ _ => 0) H 0 [2, 3]) 0 [2, 3] ∧
      ¬Shows (assignAt (fun _ _ => 0) H 0 (.bytes [2]) 1) 0 [1, 2] := by
  refine ⟨_, rfl, ⟨_, rfl, rfl, rfl⟩, ?_, ?_⟩
  · rintro ⟨H', hsome, hcontent, -⟩
    obtain rfl := Option.some.inj hsome
    cases hcontent
  · rintro ⟨H', hsome, hcontent, -⟩
    obtain rfl := Option.some.inj hsome
    cases hcontent

end

end Nodeoze.Buffer
