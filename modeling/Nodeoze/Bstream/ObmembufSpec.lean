import Nodeoze.Bstream.Obmembuf

/-!
# What the functions of the memory buffer do

`Inv s h B c` relates the window of an `obmembuf` to its buffer: handle `h` on block `B`, showing
`c`.  One lemma per function says that the function is defined, what it does to the window and to
`c`, and, through `Step`, that the other handles on the heap see nothing of it.
-/

namespace Nodeoze.Bstream.Obmembuf

open RefHeap Splice Buffer Obstreambuf

/-- How far the bytes written so far reach. -/
def extent (s : Obmembuf) : Nat := if s.dirty then max s.highWatermark s.pnext else s.highWatermark

structure Inv (s : Obmembuf) (h : Handle) (B : Block UInt8 Policy) (c : List UInt8) : Prop where
  owned : Owned s.dev.heap s.dev.buf h B c
  base : s.dev.pbase = h.data
  pend : s.pend = h.size
  offset : s.pbaseOffset = 0
  next : s.pnext ≤ s.pend
  mark : s.highWatermark ≤ s.pend
  touched : s.lastTouched ≤ s.highWatermark

/-- What a function leaves alone: the slot, the start of the buffer, and, unless the block is
changed in place for everybody, the other handles. -/
structure Step (s : Obmembuf) (h : Handle) (B : Block UInt8 Policy) (s' : Obmembuf) (h' : Handle)
    (B' : Block UInt8 Policy) : Prop where
  buf : s'.dev.buf = s.dev.buf
  start : AtStart h B → AtStart h' B'
  guard : guarded B.tag → guarded B'.tag
  frame : guarded B.tag → Frame s.dev.buf s.dev.heap s'.dev.heap

section

variable {s s' s'' : Obmembuf} {h h' h'' : Handle} {B B' B'' : Block UInt8 Policy} {c : List UInt8}

theorem Step.refl (s : Obmembuf) (h : Handle) (B : Block UInt8 Policy) : Step s h B s h B :=
  ⟨rfl, id, id, fun _ => Frame.refl _ _⟩

theorem Step.trans (st : Step s h B s' h' B') (st' : Step s' h' B' s'' h'' B'') :
    Step s h B s'' h'' B'' where
  buf := st'.buf.trans st.buf
  start := fun hs => st'.start (st.start hs)
  guard := fun hg => st'.guard (st.guard hg)
  frame := fun hg => (st.frame hg).trans (st.buf ▸ st'.frame (st.guard hg))

theorem Inv.ppos (i : Inv s h B c) : s.ppos = s.pnext := by
  rw [Obstreambuf.ppos, i.offset, Nat.zero_add]

theorem Inv.length (i : Inv s h B c) : c.length = s.pend := by
  rw [i.owned.length, i.pend]

theorem Inv.extent_le (i : Inv s h B c) : extent s ≤ c.length := by
  have := i.next
  have := i.mark
  rw [i.length]
  unfold extent
  split_ifs <;> omega

@[simp] theorem defined_some {α : Type} (a : α) : defined (some a) = .ok a := rfl

theorem setPtrs_eq (o : Owned s.dev.heap s.dev.buf h B c) (next : Nat) :
    setPtrs s next =
      .ok { s with dev := { s.dev with pbase := h.data }, pnext := next, pend := h.size } := by
  simp only [setPtrs, o.buf, defined_some, ok_bind]
  rfl

/-! ### Flushing -/

theorem extent_of_clean (hd : ¬ s.dirty = true) : extent s = s.highWatermark := by
  unfold extent
  rw [if_neg hd]

theorem setHighWatermark_eq (i : Inv s h B c) :
    s.setHighWatermark = { s with highWatermark := extent s } := by
  have hpos := i.ppos
  obtain ⟨_, mark, _, next, _, _, dirty, _, _⟩ := s
  simp only [Obstreambuf.setHighWatermark, extent, hpos]
  cases dirty with
  | false => simp
  | true =>
    by_cases hlt : mark < next
    · simp [hlt, Nat.le_of_lt hlt]
    · simp [hlt, Nat.le_of_not_lt hlt]

/-- What `flush` leaves. -/
def flushed (s : Obmembuf) : Obmembuf :=
  { s with
    highWatermark := extent s
    lastTouched := if s.dirty then s.pnext else s.lastTouched
    dirty := false }

@[simp] theorem flushed_highWatermark : (flushed s).highWatermark = extent s := rfl

theorem flush_eq (i : Inv s h B c) : Obstreambuf.flush s = .ok (flushed s) := by
  have hmark := setHighWatermark_eq i
  have hoff := i.offset
  have hflush : s.dirty = true → Obstreambuf.flush s = .ok { s.setHighWatermark with
      lastTouched := s.setHighWatermark.ppos, dirty := false } := by
    intro hd
    unfold Obstreambuf.flush
    rw [if_pos hd]
    rfl
  obtain ⟨_, _, _, _, _, _, dirty, _, _⟩ := s
  obtain rfl := hoff
  cases dirty with
  | false => rfl
  | true =>
    rw [hflush rfl, hmark]
    simp [flushed, Obstreambuf.ppos]

theorem Inv.flushed (i : Inv s h B c) : Inv (flushed s) h B c where
  owned := i.owned
  base := i.base
  pend := i.pend
  offset := i.offset
  next := i.next
  mark := by
    have := i.extent_le
    rw [i.length] at this
    exact this
  touched := by
    have := i.touched
    simp only [Obmembuf.flushed, extent]
    split_ifs <;> omega

/-! ### Making the buffer writable -/

/-- The buffer is cloned if it is shared, and then only what is in front of the position is sure to
be copied. -/
theorem makeWritable_spec (i : Inv s h B c) :
    ∃ s' h' B' c', Obstreambuf.makeWritable s = .ok s' ∧ Inv s' h' B' c' ∧ Step s h B s' h' B' ∧
      s'.writable = true ∧ s'.dirty = s.dirty ∧ s'.pnext = s.pnext ∧ s'.pend = s.pend ∧
      s'.highWatermark = s.highWatermark ∧ (s.writable = true ∨ Writable B → c' = c) ∧
      (AtStart h B → c'.take s.pnext = c.take s.pnext) ∧
      ((s.writable = true → Writable B) → Writable B') := by
  unfold Obstreambuf.makeWritable
  by_cases hw : s.writable = true
  · rw [if_pos hw]
    exact ⟨s, h, B, c, rfl, i, Step.refl s h B, hw, rfl, rfl, rfl, rfl, fun _ => rfl, fun _ => rfl,
      fun hwB => hwB hw⟩
  · rw [if_neg hw]
    by_cases hB : Writable B
    · refine ⟨{ s with writable := true }, h, B, c, ?_, ⟨i.owned, i.base, i.pend, i.offset, i.next,
        i.mark, i.touched⟩, ⟨rfl, id, id, fun _ => Frame.refl _ _⟩, rfl, rfl, rfl, rfl, rfl,
        fun _ => rfl, fun _ => rfl, fun _ => hB⟩
      change (reallyMakeWritable s >>= _) = _
      simp only [reallyMakeWritable, i.owned.isWritable, hB, decide_true, defined_some, ok_bind,
        if_true]
      rfl
    · have hle : s.pnext ≤ h.size := i.pend ▸ i.next
      obtain ⟨H', h', B', c', hforce, o', hf, hr, hlen, hcopy, hg⟩ :=
        i.owned.forceUniqueN s.dev.junk hle
      have hsize : h'.size = h.size := by rw [← o'.length, hlen, i.owned.length]
      have hptrs := setPtrs_eq (s := setHeap s H') o' s.pnext
      let s₁ : Obmembuf := { s with
        dev := { s.dev with heap := H', pbase := h'.data }, pend := h'.size, writable := true }
      refine ⟨s₁, h', B', c', ?_, ⟨o', rfl, rfl, i.offset, hle.trans hsize.ge, ?_, i.touched⟩,
        ⟨rfl, fun hs => (hcopy hs).1, hg, fun _ => hf⟩, rfl, rfl, rfl, hsize.trans i.pend.symm, rfl,
        ?_, fun hs => (hcopy hs).2, fun _ => Or.inl hr⟩
      · change (reallyMakeWritable s >>= _) = _
        simp only [reallyMakeWritable, i.owned.isWritable, hB, decide_false, defined_some, ok_bind,
          hforce, Bool.false_eq_true, if_false, hptrs]
        rfl
      · change s.highWatermark ≤ h'.size
        rw [hsize, ← i.pend]
        exact i.mark
      · rintro (hflag | hB')
        · exact absurd hflag hw
        · exact absurd hB' hB

/-! ### Storing -/

theorem store_spec (i : Inv s h B c) (hw : Writable B) (off : Nat) (src : List UInt8)
    (hroom : off + src.length ≤ s.pend) :
    ∃ H' B', store s off src = .ok (setHeap s H') ∧ Inv (setHeap s H') h B' (splice c off src) ∧
      Step s h B (setHeap s H') h B' ∧ Writable B' := by
  obtain ⟨H', B', -, hwrite, o', hr, ht, hs, hf⟩ := i.owned.rputn (i.pend ▸ hroom)
  refine ⟨H', B', ?_, ⟨o', i.base, i.pend, i.offset, i.next, i.mark, i.touched⟩,
    ⟨rfl, hs, fun hg => ht ▸ hg, fun hg => hf (hw.unique hg)⟩, ?_⟩
  · have hat : s.dev.pbase.map (Ptr.add · off) = h.at off := by
      rw [i.base]
      rfl
    simp only [store, hat, hwrite, defined_some, ok_bind]
    rfl
  · unfold Writable
    rw [hr, ht]
    exact hw

/-- The gap in front of the position is filled with zeros. -/
theorem touch_spec (i : Inv s h B c) (hw : Writable B) (hd : s.dirty = false) :
    ∃ s' B' c', Obstreambuf.touch s = .ok s' ∧ Inv s' h B' c' ∧ Step s h B s' h B' ∧ Writable B' ∧
      s'.dirty = false ∧ s'.writable = s.writable ∧ s'.pnext = s.pnext ∧ s'.pend = s.pend ∧
      s'.highWatermark = max s.highWatermark s.pnext ∧
      c'.take s'.highWatermark = pad 0 (c.take s.highWatermark) s.pnext := by
  have hmark := i.mark
  have hnext := i.next
  have hlen := i.length
  have htake : (c.take s.highWatermark).length = s.highWatermark := by
    rw [List.length_take]
    omega
  unfold Obstreambuf.touch
  rw [i.ppos]
  by_cases ht : s.lastTouched = s.pnext
  · have hle : s.pnext ≤ s.highWatermark := ht ▸ i.touched
    rw [if_neg (not_not.mpr ht)]
    refine ⟨s, B, c, rfl, i, Step.refl s h B, hw, hd, rfl, rfl, rfl, by omega, ?_⟩
    rw [pad_of_le 0 (by omega)]
  · rw [if_pos ht]
    by_cases hlt : s.highWatermark < s.pnext
    · let s₀ : Obmembuf := { s with dirtyStart := s.highWatermark }
      have i₀ : Inv s₀ h B c := ⟨i.owned, i.base, i.pend, i.offset, i.next, i.mark, i.touched⟩
      obtain ⟨H', B', hstore, i', st, hw'⟩ := store_spec i₀ hw s.highWatermark
        (List.replicate (s.pnext - s.highWatermark) 0)
        (by rw [List.length_replicate]; change _ ≤ s.pend; omega)
      have i'' : Inv { setHeap s₀ H' with dirty := true } h B' _ :=
        ⟨i'.owned, i'.base, i'.pend, i'.offset, i'.next, i'.mark, i'.touched⟩
      have hext : extent { setHeap s₀ H' with dirty := true } = s.pnext := by
        change max s.highWatermark s.pnext = s.pnext
        omega
      refine ⟨_, B', _, ?_, i''.flushed, ⟨st.buf, st.start, st.guard, st.frame⟩, hw', rfl, rfl, rfl,
        rfl, ?_, ?_⟩
      · change reallyTouch s = _
        simp only [reallyTouch, i.ppos, hlt, if_true]
        change (store s₀ s.highWatermark _ >>= _) = _
        rw [hstore]
        exact flush_eq i''
      · rw [flushed_highWatermark, hext]
        omega
      · rw [flushed_highWatermark, hext, pad, htake]
        have hsum : s.highWatermark + (List.replicate (s.pnext - s.highWatermark) (0 : UInt8)).length
            = s.pnext := by
          rw [List.length_replicate]
          omega
        have hfill := take_splice c s.highWatermark
          (List.replicate (s.pnext - s.highWatermark) (0 : UInt8)) (by omega)
        rwa [hsum] at hfill
    · have hmax : max s.highWatermark s.pnext = s.highWatermark := by omega
      refine ⟨{ s with lastTouched := s.pnext }, B, c, ?_, ⟨i.owned, i.base, i.pend, i.offset, i.next,
        i.mark, ?_⟩, ⟨rfl, id, id, fun _ => Frame.refl _ _⟩, hw, hd, rfl, rfl, rfl, hmax.symm, ?_⟩
      · change reallyTouch s = _
        simp only [reallyTouch, i.ppos, hlt, if_false]
        rfl
      · change s.pnext ≤ s.highWatermark
        omega
      · rw [pad_of_le 0 (by omega)]

/-! ### Enlarging the buffer -/

/-- `resize( size )` and the new window at position `next`. -/
theorem resize_spec (i : Inv s h B c) (size next : Nat) (hsize : s.pend ≤ size)
    (hnext : next ≤ size) :
    ∃ s' h' B' c', (resize s size >>= fun s => setPtrs s next) = .ok s' ∧ Inv s' h' B' c' ∧
      Step s h B s' h' B' ∧ Writable B' ∧ s'.dirty = s.dirty ∧ s'.writable = s.writable ∧
      s'.pnext = next ∧ size ≤ s'.pend ∧ (next < s'.pend) ∧ s'.highWatermark = s.highWatermark ∧
      s'.lastTouched = s.lastTouched ∧ c'.take c.length = c := by
  have hgrow : size < max 16 (size * 3 / 2) := by omega
  have hlt : h.size < max 16 (size * 3 / 2) := by
    rw [← i.pend]
    omega
  obtain ⟨H', h', B', c', hcall, o', hlen, htake, hf, hs, hg, hw'⟩ :=
    i.owned.size s.dev.junk (max 16 (size * 3 / 2))
  have hsize' : h'.size = max 16 (size * 3 / 2) := by rw [← o'.length, hlen]
  have hptrs := setPtrs_eq (s := setHeap s H') o' next
  let s₁ : Obmembuf := { s with
    dev := { s.dev with heap := H', pbase := h'.data }, pnext := next, pend := h'.size }
  have hmark := i.mark
  refine ⟨s₁, h', B', c', ?_, ⟨o', rfl, rfl, i.offset, ?_, ?_, i.touched⟩, ⟨rfl, hs, hg, hf⟩,
    hw' hlt, rfl, rfl, rfl, ?_, ?_, rfl, rfl, ?_⟩
  · simp only [resize, hcall, defined_some, ok_bind]
    exact hptrs
  · change next ≤ h'.size
    omega
  · change s.highWatermark ≤ h'.size
    omega
  · change size ≤ h'.size
    omega
  · change next < h'.size
    omega
  · rw [i.owned.length, htake, List.take_of_length_le (by rw [i.owned.length]; omega)]

/-- There is room for `n` bytes behind the position, as it is or after an overflow. -/
theorem room_spec (i : Inv s h B c) (hw : Writable B) (n : Nat) :
    ∃ s' h' B' c', (if n ≤ s.pend - s.pnext then .ok s else Obstreambuf.overflow s n) = .ok s' ∧
      Inv s' h' B' c' ∧ Step s h B s' h' B' ∧ Writable B' ∧ s'.writable = s.writable ∧
      s'.pnext = s.pnext ∧ s.pnext + n ≤ s'.pend ∧ extent s' = extent s ∧
      c'.take (extent s) = c.take (extent s) := by
  have hnext := i.next
  by_cases hroom : n ≤ s.pend - s.pnext
  · rw [if_pos hroom]
    exact ⟨s, h, B, c, rfl, i, Step.refl s h B, hw, rfl, rfl, by omega, rfl, rfl⟩
  · rw [if_neg hroom]
    obtain ⟨s', h', B', c', hcall, i', st, hw', hd, hwr, hp, hle, -, hm, -, htake⟩ :=
      resize_spec i.flushed (s.pnext + n) s.pnext (by change s.pend ≤ _; omega) (by omega)
    refine ⟨s', h', B', c', ?_, i', ⟨st.buf, st.start, st.guard, st.frame⟩, hw', hwr, hp, hle, ?_, ?_⟩
    · unfold Obstreambuf.overflow
      rw [flush_eq i]
      change reallyOverflow (flushed s) n = _
      unfold reallyOverflow
      rw [i.flushed.ppos]
      exact hcall
    · unfold extent
      rw [hd, hm]
      rfl
    · have hle := i.extent_le
      have hpre : (c'.take c.length).take (extent s) = c'.take (extent s) := by
        rw [List.take_take, min_eq_left hle]
      rw [← hpre, htake]

theorem place_spec (i : Inv s h B c) (hw : Writable B) {src : List UInt8}
    (hroom : s.pnext + src.length ≤ s.pend) :
    ∃ s' B', Obstreambuf.place s src = .ok s' ∧ Inv s' h B' (splice c s.pnext src) ∧
      Step s h B s' h B' ∧ Writable B' ∧ s'.writable = s.writable ∧
      s'.pnext = s.pnext + src.length ∧ s'.dirty = true ∧ s'.highWatermark = s.highWatermark := by
  obtain ⟨s₀, hs₀, i₀, hdev, hnext, hwr, hmark⟩ : ∃ s₀ : Obmembuf,
      (if s.dirty then s else { s with dirtyStart := s.pnext }) = s₀ ∧ Inv s₀ h B c ∧
        s₀.dev = s.dev ∧ s₀.pnext = s.pnext ∧ s₀.writable = s.writable ∧
        s₀.highWatermark = s.highWatermark := by
    split_ifs
    · exact ⟨s, rfl, i, rfl, rfl, rfl, rfl⟩
    · exact ⟨_, rfl, ⟨i.owned, i.base, i.pend, i.offset, i.next, i.mark, i.touched⟩, rfl, rfl, rfl,
        rfl⟩
  have hroom₀ : s₀.pnext + src.length ≤ s₀.pend := by
    rw [hnext, i₀.pend, ← i.pend]
    exact hroom
  obtain ⟨H', B', hstore, i', st, hw'⟩ := store_spec i₀ hw s₀.pnext src hroom₀
  refine ⟨{ setHeap s₀ H' with pnext := s₀.pnext + src.length, dirty := true }, B', ?_,
    ⟨hnext ▸ i'.owned, i'.base, i'.pend, i'.offset, hroom₀, i'.mark, i'.touched⟩,
    ⟨?_, st.start, st.guard, ?_⟩, hw', hwr, by rw [← hnext], rfl, hmark⟩
  · unfold Obstreambuf.place
    rw [hs₀]
    change (store s₀ s₀.pnext src >>= _) = _
    rw [hstore]
    rfl
  · rw [← hdev]
    exact st.buf
  · rw [← hdev]
    exact st.frame

/-! ### Writing -/

/-- What the bytes in front of the extent depend on when a shared buffer is cloned: the buffer is
not cloned, or all of them are in front of the position. -/
def Copied (s : Obmembuf) (B : Block UInt8 Policy) : Prop :=
  s.writable = true ∨ Writable B ∨ extent s ≤ s.pnext

theorem prepare_spec (i : Inv s h B c) (hw : s.writable = true → Writable B) :
    ∃ s' h' B' c', Obstreambuf.prepare s = .ok s' ∧ Inv s' h' B' c' ∧ Step s h B s' h' B' ∧
      Writable B' ∧ s'.writable = true ∧ s'.pnext = s.pnext ∧ extent s' = max (extent s) s.pnext ∧
      (AtStart h B → Copied s B → c'.take (extent s') = pad 0 (c.take (extent s)) s.pnext) := by
  obtain ⟨s₁, h₁, B₁, c₁, hmake, i₁, st₁, hwr₁, hd₁, hn₁, hp₁, hm₁, hsame, hfront, hw₁⟩ :=
    makeWritable_spec i
  have hext : extent s₁ = extent s := by
    unfold extent
    rw [hd₁, hm₁, hn₁]
  have hkept : AtStart h B → Copied s B → c₁.take (extent s) = c.take (extent s) := by
    rintro hs (hflag | hB | hle)
    · rw [hsame (Or.inl hflag)]
    · rw [hsame (Or.inr hB)]
    · have := congrArg (List.take (extent s)) (hfront hs)
      rwa [List.take_take, List.take_take, min_eq_left hle] at this
  have hlen := i.extent_le
  have hprep : Obstreambuf.prepare s = if s₁.dirty then .ok s₁ else Obstreambuf.touch s₁ := by
    unfold Obstreambuf.prepare
    rw [hmake]
    rfl
  rw [hprep]
  by_cases hd : s₁.dirty = true
  · rw [if_pos hd]
    have hle : s.pnext ≤ extent s := by
      unfold extent
      rw [← hd₁, if_pos hd]
      omega
    refine ⟨s₁, h₁, B₁, c₁, rfl, i₁, st₁, hw₁ hw, hwr₁, hn₁, by omega, fun hs hc => ?_⟩
    rw [hext, hkept hs hc, pad_of_le 0 (by rw [List.length_take]; omega)]
  · rw [if_neg hd]
    have hd : s₁.dirty = false := by simpa using hd
    have hmark : extent s = s₁.highWatermark := by
      rw [← hext]
      unfold extent
      rw [hd]
      rfl
    obtain ⟨s₂, B₂, c₂, htouch, i₂, st₂, hw₂, hd₂, hwr₂, hn₂, hp₂, hm₂, hpad⟩ :=
      touch_spec i₁ (hw₁ hw) hd
    have hext₂ : extent s₂ = s₂.highWatermark := by
      unfold extent
      rw [hd₂]
      rfl
    refine ⟨s₂, h₁, B₂, c₂, htouch, i₂, st₁.trans st₂, hw₂, hwr₂.trans hwr₁, hn₂.trans hn₁, ?_,
      fun hs hc => ?_⟩
    · rw [hext₂, hm₂, hmark, hn₁]
    · rw [hext₂, hpad, ← hmark, hkept hs hc, hn₁]

/-- The window of a write: prepared, with room for `n` bytes. -/
theorem ready_spec (i : Inv s h B c) (hw : s.writable = true → Writable B) (n : Nat) :
    ∃ s₁ s' h' B' c', Obstreambuf.prepare s = .ok s₁ ∧
      (if n ≤ s₁.pend - s₁.pnext then .ok s₁ else Obstreambuf.overflow s₁ n) = .ok s' ∧
      Inv s' h' B' c' ∧ Step s h B s' h' B' ∧ Writable B' ∧ s'.writable = true ∧
      s'.pnext = s.pnext ∧ s.pnext + n ≤ s'.pend ∧
      max s'.highWatermark s.pnext = max (extent s) s.pnext ∧
      (AtStart h B → Copied s B →
        c'.take (max (extent s) s.pnext) = pad 0 (c.take (extent s)) s.pnext) := by
  obtain ⟨s₁, h₁, B₁, c₁, hprep, i₁, st₁, hw₁, hwr₁, hn₁, he₁, hpad₁⟩ := prepare_spec i hw
  obtain ⟨s₂, h₂, B₂, c₂, hroom, i₂, st₂, hw₂, hwr₂, hn₂, hle₂, he₂, htake₂⟩ :=
    room_spec i₁ hw₁ n
  refine ⟨s₁, s₂, h₂, B₂, c₂, hprep, hroom, i₂, st₁.trans st₂, hw₂, hwr₂.trans hwr₁,
    hn₂.trans hn₁, hn₁ ▸ hle₂, ?_, fun hs hc => ?_⟩
  · have hext := he₂.trans he₁
    rw [← hext]
    unfold extent at hext ⊢
    split_ifs at hext ⊢ <;> omega
  · rw [← he₁, htake₂]
    exact hpad₁ hs hc

/-- A write: the gap in front of the position is filled, then the bytes are overwritten. -/
structure Wrote (s : Obmembuf) (h : Handle) (B : Block UInt8 Policy) (c : List UInt8)
    (src : List UInt8) (s' : Obmembuf) (h' : Handle) (B' : Block UInt8 Policy) (c' : List UInt8) :
    Prop where
  inv : Inv s' h' B' c'
  step : Step s h B s' h' B'
  free : Writable B'
  flag : s'.writable = true
  next : s'.pnext = s.pnext + src.length
  dirty : s'.dirty = true
  bytes : AtStart h B → Copied s B →
    c'.take (extent s') = splice (pad 0 (c.take (extent s)) s.pnext) s.pnext src

theorem placed_spec (i : Inv s h B c) (hw : s.writable = true → Writable B) (src : List UInt8) :
    ∃ s₁ s₂ s' h' B' c', Obstreambuf.prepare s = .ok s₁ ∧
      (if src.length ≤ s₁.pend - s₁.pnext then .ok s₁ else Obstreambuf.overflow s₁ src.length) =
        .ok s₂ ∧
      src.length ≤ s₂.pend - s₂.pnext ∧ Obstreambuf.place s₂ src = .ok s' ∧
      Wrote s h B c src s' h' B' c' := by
  obtain ⟨s₁, s₂, h₂, B₂, c₂, hprep, hroom, i₂, st₂, hw₂, hwr₂, hn₂, hle₂, hmax, hpad⟩ :=
    ready_spec i hw src.length
  obtain ⟨s', B', hplace, i', st', hw', hwr', hn', hd', hm'⟩ :=
    place_spec i₂ hw₂ (show s₂.pnext + src.length ≤ s₂.pend by rw [hn₂]; exact hle₂)
  refine ⟨s₁, s₂, s', h₂, B', _, hprep, hroom, by omega, hplace, i', st₂.trans st', hw',
    hwr'.trans hwr₂, by rw [hn', hn₂], hd', fun hs hc => ?_⟩
  have hmark := i₂.mark
  have hlen := i₂.length
  have hext : extent s' = max s₂.highWatermark (s.pnext + src.length) := by
    unfold extent
    rw [hd', if_pos rfl, hm', hn', hn₂]
  rw [hext, hn₂, ← splice_take_max _ _ _ _ (by omega), hmax, hpad hs hc]

theorem putn_spec (i : Inv s h B c) (hw : s.writable = true → Writable B) (src : List UInt8) :
    ∃ s' h' B' c', Obstreambuf.putn s src = .ok s' ∧ Wrote s h B c src s' h' B' c' := by
  obtain ⟨s₁, s₂, s', h', B', c', hprep, hroom, hle, hplace, hwrote⟩ := placed_spec i hw src
  refine ⟨s', h', B', c', ?_, hwrote⟩
  unfold Obstreambuf.putn
  rw [hprep, ok_bind]
  split_ifs at hroom ⊢ with hfit
  · rw [Except.ok.inj hroom]
    exact hplace
  · rw [hroom, ok_bind, if_pos hle]
    exact hplace

theorem put_spec (i : Inv s h B c) (hw : s.writable = true → Writable B) (byte : UInt8) :
    ∃ s' h' B' c', Obstreambuf.put s byte = .ok s' ∧ Wrote s h B c [byte] s' h' B' c' := by
  obtain ⟨s₁, s₂, s', h', B', c', hprep, hroom, -, hplace, hwrote⟩ := placed_spec i hw [byte]
  refine ⟨s', h', B', c', ?_, hwrote⟩
  unfold Obstreambuf.put
  rw [hprep, ok_bind]
  by_cases hfull : s₁.pend ≤ s₁.pnext
  · rw [if_neg (by simp; omega)] at hroom
    have hroom : Obstreambuf.overflow s₁ 1 = .ok s₂ := hroom
    simp only [hfull, if_true, hroom, ok_bind]
    exact hplace
  · rw [if_pos (by simp; omega)] at hroom
    obtain rfl := Except.ok.inj hroom
    simp only [hfull, if_false]
    exact hplace

/-! ### Seeking and clearing -/

theorem seek_negative (i : Inv s h B c) {where_ : SeekAnchor} {offset : Int}
    (hneg : (flushed s).target where_ offset < 0) : seek s where_ offset = .ok (none, flushed s) := by
  unfold seek
  rw [flush_eq i, ok_bind, if_pos hneg]
  rfl

theorem seek_spec (i : Inv s h B c) {where_ : SeekAnchor} {offset : Int} {pos : Nat}
    (hpos : (flushed s).target where_ offset = pos) :
    ∃ s' h' B' c', seek s where_ offset = .ok (some pos, s') ∧ Inv s' h' B' c' ∧
      Step s h B s' h' B' ∧ s'.pnext = pos ∧ s'.dirty = false ∧ s'.writable = s.writable ∧
      s'.highWatermark = extent s ∧ c'.take (extent s) = c.take (extent s) ∧
      (Writable B → Writable B') := by
  have hseek : seek s where_ offset =
      if (flushed s).pend ≤ pos then do
        let s' ← resize (flushed s) pos
        let s' ← setPtrs s' pos
        pure (some pos, s')
      else pure (some pos, { flushed s with pnext := pos }) := by
    unfold seek
    rw [flush_eq i, ok_bind, hpos, if_neg (by omega), Int.toNat_natCast]
  rw [hseek]
  by_cases hle : (flushed s).pend ≤ pos
  · rw [if_pos hle]
    obtain ⟨s', h', B', c', hcall, i', st, hw', hd, hwr, hp, -, -, hm, -, htake⟩ :=
      resize_spec i.flushed pos pos hle le_rfl
    refine ⟨s', h', B', c', ?_, i', ⟨st.buf, st.start, st.guard, st.frame⟩, hp, hd, hwr, hm, ?_,
      fun _ => hw'⟩
    · rw [← bind_assoc, hcall]
      rfl
    · have := congrArg (List.take (extent s)) htake
      rwa [List.take_take, min_eq_left i.extent_le] at this
  · rw [if_neg hle]
    have i' := i.flushed
    exact ⟨_, h, B, c, rfl, ⟨i'.owned, i'.base, i'.pend, i'.offset, Nat.le_of_not_le hle, i'.mark,
      i'.touched⟩, ⟨rfl, id, id, fun _ => Frame.refl _ _⟩, rfl, rfl, rfl, rfl, rfl, id⟩

theorem clear_spec (i : Inv s h B c) :
    ∃ s', clear s = .ok s' ∧ Inv s' h B c ∧ Step s h B s' h B ∧ s'.pnext = 0 ∧ extent s' = 0 ∧
      s'.dirty = false ∧ s'.writable = s.writable := by
  refine ⟨{ s with
    dev := { s.dev with pbase := h.data }, pnext := 0, pend := h.size, highWatermark := 0,
    lastTouched := 0, dirty := false }, ?_,
    ⟨i.owned, rfl, rfl, i.offset, Nat.zero_le _, Nat.zero_le _, le_rfl⟩,
    ⟨rfl, id, id, fun _ => Frame.refl _ _⟩, rfl, rfl, rfl, rfl⟩
  unfold clear
  rw [setPtrs_eq i.owned, ok_bind]
  rfl

theorem tell_spec (i : Inv s h B c) (where_ : SeekAnchor) :
    ∃ s', Obstreambuf.tell s where_ =
        (match where_ with
          | .current => s.pnext
          | .end_ => extent s
          | .begin => 0, s') ∧
      Inv s' h B c ∧ Step s h B s' h B ∧ s'.pnext = s.pnext ∧ extent s' = extent s ∧
      s'.dirty = s.dirty ∧ s'.writable = s.writable ∧ s.highWatermark ≤ s'.highWatermark := by
  cases where_ with
  | current =>
    refine ⟨s, ?_, i, Step.refl s h B, rfl, rfl, rfl, rfl, le_rfl⟩
    simp only [Obstreambuf.tell, i.ppos]
  | begin => exact ⟨s, rfl, i, Step.refl s h B, rfl, rfl, rfl, rfl, le_rfl⟩
  | end_ =>
    have hle := i.extent_le
    have hmark : s.highWatermark ≤ extent s := by
      unfold extent
      split_ifs <;> omega
    have hsame : extent { s with highWatermark := extent s } = extent s := by
      unfold extent
      split_ifs <;> simp
    refine ⟨{ s with highWatermark := extent s }, ?_, ⟨i.owned, i.base, i.pend, i.offset, i.next,
      by rw [i.length] at hle; exact hle, i.touched.trans hmark⟩,
      ⟨rfl, id, id, fun _ => Frame.refl _ _⟩, rfl, hsame, rfl, rfl, hmark⟩
    simp only [Obstreambuf.tell]
    by_cases hd : s.dirty = true
    · rw [if_pos hd, setHighWatermark_eq i]
    · rw [if_neg hd, extent_of_clean hd]

/-! ### Handing out the buffer -/

theorem getBuffer_spec (i : Inv s h B c) (forceCopy : Bool) :
    ∃ s' B', getBuffer s forceCopy = .ok (s.dev.heap.slots, s') ∧ Inv s' h B' c ∧
      s'.dev.buf = s.dev.buf ∧ Frame s.dev.heap.slots s.dev.heap s'.dev.heap ∧
      s'.dev.heap.content s.dev.heap.slots = some (c.take (extent s)) ∧
      (AtStart h B → AtStart h B') ∧ B'.tag = B.tag ∧ s'.pnext = s.pnext ∧
      s'.highWatermark = extent s ∧ extent s' = extent s ∧
      (s'.writable = true → s.writable = true ∧ (Writable B → Writable B')) := by
  have hle := i.extent_le
  obtain ⟨H', B', hslice, o', hcontent, hf, ht, hm, hg, hr⟩ := i.owned.slice 0 (extent s) forceCopy
  let flag : Bool := if !forceCopy && decide (B.tag = .copyOnWrite) then false else s.writable
  let s' : Obmembuf := { s with
    dev := { s.dev with heap := H' }, highWatermark := extent s, writable := flag }
  have htouch : s.lastTouched ≤ extent s := by
    have := i.touched
    unfold extent
    split_ifs <;> omega
  have hsame : extent s' = extent s := by
    change (if s.dirty then max (extent s) s.pnext else extent s) = extent s
    unfold extent
    split_ifs <;> simp
  refine ⟨s', B', ?_, ⟨o', i.base, i.pend, i.offset, i.next, by rw [i.length] at hle; exact hle,
    htouch⟩, rfl, hf, by rw [hcontent, List.drop_zero], ?_, ht, rfl, rfl, hsame, fun hflag => ?_⟩
  · let s₁ : Obmembuf := { s with writable := flag }
    have i₁ : Inv s₁ h B c := ⟨i.owned, i.base, i.pend, i.offset, i.next, i.mark, i.touched⟩
    have hs₁ : (if (!forceCopy && decide (B.tag = .copyOnWrite)) = true then
        { s with writable := false } else s) = s₁ := by
      simp only [s₁, flag]
      split_ifs <;> rfl
    have hs₂ : (if s₁.dirty then s₁.setHighWatermark else s₁) =
        { s₁ with highWatermark := extent s } := by
      by_cases hd : s.dirty = true
      · rw [if_pos hd, setHighWatermark_eq i₁]
        rfl
      · rw [if_neg hd, extent_of_clean hd]
    unfold getBuffer
    rw [i.owned.isPolicy, defined_some, ok_bind]
    simp only [hs₁, hs₂]
    change (defined (slice s.dev.heap s.dev.buf 0 (extent s) forceCopy) >>= _) = _
    rw [hslice]
    rfl
  · intro hs
    unfold AtStart Block.data at hs ⊢
    rwa [hm, hg]
  · change flag = true at hflag
    simp only [flag] at hflag
    split_ifs at hflag with hcow
    refine ⟨hflag, fun hw => ?_⟩
    rcases hw with hu | hp
    · by_cases hx : B.tag = .exclusive ∨ forceCopy = true
      · exact Or.inl ((hr hx).trans hu)
      · right
        rw [ht]
        cases htag : B.tag <;> simp_all
    · exact Or.inr (ht.trans hp)

end

end Nodeoze.Bstream.Obmembuf
