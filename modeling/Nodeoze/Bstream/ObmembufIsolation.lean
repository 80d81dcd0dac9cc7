import Nodeoze.Bstream.ObmembufRefines

/-!
# The memory buffer and the other handles on its block

A write through an `obmembuf` must not show in any other buffer: not in one that `get_buffer`
returned, and not in one that shared the block with a buffer that was moved in.  `get_buffer`
clears the flag `writable` whenever it shares the block; the constructor that takes a buffer does
not look whether its block is shared.
-/

namespace Nodeoze.Bstream.Obmembuf

open RefHeap Splice Buffer Obstreambuf

/-- A write with the flag `writable` set and other handles on the block. -/
def Exposed (s : Obmembuf) (op : Op) : Prop :=
  op.written ≠ none ∧ s.writable = true ∧ isUnique s.dev.heap s.dev.buf ≠ some true

instance (s : Obmembuf) (op : Op) : Decidable (Exposed s op) := inferInstanceAs (Decidable (_ ∧ _))

/-- No step of the run is an exposed write. -/
def unexposed : Obmembuf → List Op → Bool
  | _, [] => true
  | s, op :: ops =>
    !decide (Exposed s op) &&
      match step s op with
      | .ok (_, s) => unexposed s ops
      | .error _ => true

/-- Every step of the run is defined and leaves what the other handles show alone, except that the
client may drop one. -/
def Isolated : Obmembuf → List Op → Prop
  | _, [] => True
  | s, op :: ops => ∃ o s', step s op = .ok (o, s') ∧
      (∀ j, j ≠ s.dev.buf → op ≠ .drop j → s.dev.heap.bufs j ≠ none →
        s'.dev.heap.content j = s.dev.heap.content j) ∧
      Isolated s' ops

section

variable {s : Obmembuf} {h : Handle} {B : Block UInt8 Policy} {c : List UInt8}

/-- What one call does to the other handles, and to the agreement of the flag with the block. -/
structure Apart (s : Obmembuf) (B : Block UInt8 Policy) (op : Op) (s' : Obmembuf) (h' : Handle)
    (B' : Block UInt8 Policy) (c' : List UInt8) : Prop where
  inv : Inv s' h' B' c'
  guard : guarded B'.tag
  content : ∀ j, j ≠ s.dev.buf → op ≠ .drop j → s.dev.heap.bufs j ≠ none →
    s'.dev.heap.content j = s.dev.heap.content j
  free : (s.writable = true → Writable B) → (s'.writable = true → Writable B')

theorem Apart.of_step {op : Op} {s' : Obmembuf} {h' : Handle} {B' : Block UInt8 Policy}
    {c' : List UInt8} (hg : guarded B.tag) (i' : Inv s' h' B' c') (st : Step s h B s' h' B')
    (hfree : (s.writable = true → Writable B) → (s'.writable = true → Writable B')) :
    Apart s B op s' h' B' c' :=
  ⟨i', st.guard hg, fun j hj _ _ => (st.frame hg).content j hj, hfree⟩

theorem Apart.of_wrote {op : Op} {src : List UInt8} {s' : Obmembuf} {h' : Handle}
    {B' : Block UInt8 Policy} {c' : List UInt8} (hg : guarded B.tag)
    (hw : Wrote s h B c src s' h' B' c') : Apart s B op s' h' B' c' :=
  .of_step hg hw.inv hw.step fun _ _ => hw.free

/-- One call, if a write finds the flag in agreement with the block. -/
theorem step_apart (i : Inv s h B c) (hg : guarded B.tag) (op : Op)
    (hw : op.written ≠ none → s.writable = true → Writable B) :
    ∃ o s' h' B' c', step s op = .ok (o, s') ∧ Apart s B op s' h' B' c' := by
  cases op with
  | put byte =>
    obtain ⟨s', h', B', c', hcall, hwrote⟩ := put_spec i (hw (Option.some_ne_none _)) byte
    exact ⟨.done, s', h', B', c', by simp only [step, hcall]; rfl, .of_wrote hg hwrote⟩
  | putn src =>
    obtain ⟨s', h', B', c', hcall, hwrote⟩ := putn_spec i (hw (Option.some_ne_none _)) src
    exact ⟨.done, s', h', B', c', by simp only [step, hcall]; rfl, .of_wrote hg hwrote⟩
  | filln byte n =>
    obtain ⟨s', h', B', c', hcall, hwrote⟩ :=
      putn_spec i (hw (Option.some_ne_none _)) (List.replicate n byte)
    refine ⟨.done, s', h', B', c', ?_, .of_wrote hg hwrote⟩
    simp only [step, Obstreambuf.filln, hcall]
    rfl
  | seek where_ offset =>
    by_cases hneg : (flushed s).target where_ offset < 0
    · refine ⟨.invalidArgument, flushed s, h, B, c, ?_, .of_step hg i.flushed
        ⟨rfl, id, id, fun _ => Frame.refl _ _⟩ id⟩
      simp only [step, seek_negative i hneg]
      rfl
    · obtain ⟨pos, hpos⟩ := Int.eq_ofNat_of_zero_le (Int.not_lt.mp hneg)
      obtain ⟨s', h', B', c', hcall, i', st, -, -, hwr, -, -, hfree⟩ := seek_spec i hpos
      refine ⟨.position pos, s', h', B', c', by simp only [step, hcall]; rfl,
        .of_step hg i' st fun hB hf => hfree (hB (hwr ▸ hf))⟩
  | tell where_ =>
    obtain ⟨s', hcall, i', st, -, -, -, hwr, -⟩ := tell_spec i where_
    exact ⟨_, s', h, B, c, by simp only [step, hcall]; rfl,
      .of_step hg i' st fun hB hf => hB (hwr ▸ hf)⟩
  | flush =>
    refine ⟨.done, flushed s, h, B, c, by simp only [step, flush_eq i]; rfl,
      .of_step hg i.flushed ⟨rfl, id, id, fun _ => Frame.refl _ _⟩ id⟩
  | getBuffer forceCopy =>
    obtain ⟨s', B', hcall, i', -, hf, hcontent, -, ht, -, -, -, hfree⟩ := getBuffer_spec i forceCopy
    refine ⟨.bytes (c.take (extent s)), s', h, B', c, ?_, i', by rw [ht]; exact hg,
      fun j _ _ hlive => ?_, fun hB hf' => ?_⟩
    · simp only [step, hcall, ok_bind, hcontent, defined_some]
      rfl
    · -- the new slot held nothing before
      apply hf.content
      rintro rfl
      exact hlive (i.owned.wf.absent _ le_rfl)
    · obtain ⟨hwr, hB'⟩ := hfree hf'
      exact hB' (hB hwr)
  | clear =>
    obtain ⟨s', hcall, i', st, -, -, -, hwr⟩ := clear_spec i
    exact ⟨.done, s', h, B, c, by simp only [step, hcall]; rfl,
      .of_step hg i' st fun hB hf => hB (hwr ▸ hf)⟩
  | drop slot =>
    by_cases hslot : slot = s.dev.buf
    · refine ⟨.done, s, h, B, c, by simp only [step, hslot, if_true]; rfl,
        .of_step hg i (Step.refl s h B) id⟩
    · obtain ⟨B', o', hf, -, -, ht, hone⟩ := i.owned.drop hslot
      refine ⟨.done, setHeap s (unshare s.dev.heap slot), h, B', c, ?_,
        ⟨o', i.base, i.pend, i.offset, i.next, i.mark, i.touched⟩, by rw [ht]; exact hg,
        fun j _ hdrop _ => ?_, fun hB hf' => ?_⟩
      · simp only [step, hslot, if_false]
        rfl
      · apply hf.content
        rintro rfl
        exact hdrop rfl
      · rcases hB hf' with hu | hp
        · exact Or.inl (hone hu)
        · exact absurd hp hg

/-- A run in which no write is exposed. -/
theorem isolated_of_unexposed (ops : List Op) : ∀ {s : Obmembuf} {h : Handle}
    {B : Block UInt8 Policy} {c : List UInt8}, Inv s h B c → guarded B.tag →
      unexposed s ops = true → Isolated s ops := by
  induction ops with
  | nil => exact fun _ _ _ => trivial
  | cons op ops ih =>
    intro s h B c i hg hun
    simp only [unexposed, Bool.and_eq_true, Bool.not_eq_true', decide_eq_false_iff_not] at hun
    obtain ⟨o, s', h', B', c', hstep, ap⟩ := step_apart i hg op fun hwrite hflag => by
      by_contra hB
      refine hun.1 ⟨hwrite, hflag, ?_⟩
      rw [i.owned.isUnique, decide_eq_false fun hu => hB (Or.inl hu)]
      exact Option.some_inj.not.mpr Bool.false_ne_true
    rw [hstep] at hun
    exact ⟨o, s', hstep, ap.content, ih ap.inv ap.guard hun.2⟩

/-- A run that starts with the flag in agreement with the block. -/
theorem isolated_of_free (ops : List Op) : ∀ {s : Obmembuf} {h : Handle} {B : Block UInt8 Policy}
    {c : List UInt8}, Inv s h B c → guarded B.tag → (s.writable = true → Writable B) →
      Isolated s ops := by
  induction ops with
  | nil => exact fun _ _ _ => trivial
  | cons op ops ih =>
    intro s h B c i hg hB
    obtain ⟨o, s', h', B', c', hstep, ap⟩ := step_apart i hg op fun _ => hB
    exact ⟨o, s', hstep, ap.content, ih ap.inv ap.guard (ap.free hB)⟩

end

theorem inv_ofBuffer (junk : Nat → Nat → UInt8) {H : Heap} {i : Nat} {h : Handle}
    {B : Block UInt8 Policy} {c : List UInt8} (o : Owned H i h B c) :
    ∃ s, ofBuffer junk H i = .ok s ∧ Inv s h B c :=
  ⟨_, setPtrs_eq (s := Obstreambuf.init ⟨junk, H, i, none⟩) o 0, o, rfl, rfl, rfl, Nat.zero_le _,
    Nat.zero_le _, le_rfl⟩

/-- Writes never show in another handle: always when the buffer was made from a capacity, and when
it was moved in as long as no write is exposed. -/
theorem writes_isolated (junk : Nat → Nat → UInt8) (H : Heap) (hH : H.WF guarded) (ops : List Op) :
    (∀ size, ∃ s, ofCapacity junk H size .copyOnWrite = .ok s ∧ Isolated s ops) ∧
      ∀ i h B, H.bufs i = some h → H.blks h.blk = some B → B.tag = .copyOnWrite →
        ∃ s, ofBuffer junk H i = .ok s ∧ (unexposed s ops = true → Isolated s ops) := by
  constructor
  · intro size
    obtain ⟨h, B, o, -, -, hr, ht, -⟩ := owned_construct hH (malloc junk H.next size) .copyOnWrite
    have hptrs := setPtrs_eq
      (s := Obstreambuf.init ⟨junk, allocate junk H size .copyOnWrite, H.slots, none⟩) o 0
    exact ⟨_, hptrs, isolated_of_free ops
      ⟨o, rfl, rfl, rfl, Nat.zero_le _, Nat.zero_le _, le_rfl⟩ (by rw [ht]; exact Policy.noConfusion)
      fun _ => Or.inl hr⟩
  · intro i h B hi hb ht
    have hg : guarded B.tag := by
      rw [ht]
      exact Policy.noConfusion
    have hin := hH.within hb hg hi rfl
    obtain ⟨off, hread, -⟩ := read_within hb hin
    have hcontent : H.content i = some ((B.mem.drop off).take h.size) := by
      unfold RefHeap.content
      rw [hi]
      exact hread
    obtain ⟨s, hs, inv⟩ := inv_ofBuffer junk ⟨hH, hi, hb, hin, hcontent⟩
    exact ⟨s, hs, isolated_of_unexposed ops inv hg⟩

/-- A buffer of three bytes in slot 0 and a copy of it, on the same block, in slot 1. -/
def sharedPair : Heap :=
  (adopt (construct RefHeap.empty [1, 2, 3] .copyOnWrite) 0).getD RefHeap.empty

theorem sharedPair_wf : sharedPair.WF guarded := by
  obtain ⟨h, B, o, -⟩ := owned_construct (WF.empty : (RefHeap.empty : Heap).WF guarded) [1, 2, 3]
    .copyOnWrite
  obtain ⟨H', B', hadopt, o', -⟩ := o.adopt
  have hadopt : adopt (construct RefHeap.empty [1, 2, 3] .copyOnWrite) 0 = some H' := hadopt
  unfold sharedPair
  rw [hadopt]
  exact o'.wf

/-- What slot 0 shows once slot 1 has been moved into an `obmembuf` and the calls have been made. -/
def firstAfter (ops : List Op) : Option (List UInt8) := do
  let s ← (ofBuffer (fun _ _ => 0) sharedPair 1).toOption
  let r ← (run s ops).toOption
  r.2.dev.heap.content 0

/-- The first byte written through the moved-in copy shows in the original. -/
theorem sharedPair_overwritten :
    firstAfter [] = some [1, 2, 3] ∧ firstAfter [.put 9] = some [9, 2, 3] ∧
      ∃ s, ofBuffer (fun _ _ => 0) sharedPair 1 = .ok s ∧ ¬ Isolated s [.put 9] := by
  have hbefore : firstAfter [] = some [1, 2, 3] := by decide +kernel
  have hafter : firstAfter [.put 9] = some [9, 2, 3] := by decide +kernel
  refine ⟨hbefore, hafter, ?_⟩
  cases hs : ofBuffer (fun _ _ => 0) sharedPair 1 with
  | error e =>
    unfold firstAfter at hbefore
    rw [hs] at hbefore
    cases hbefore
  | ok s =>
    refine ⟨s, rfl, ?_⟩
    rintro ⟨o, s', hstep, hcontent, -⟩
    have hbuf : s.dev.buf = 1 := by
      have : (ofBuffer (fun _ _ => 0) sharedPair 1).toOption.map (·.dev.buf) = some 1 := by
        decide +kernel
      rw [hs] at this
      exact Option.some.inj this
    have hold : s.dev.heap.content 0 = some [1, 2, 3] := by
      unfold firstAfter at hbefore
      rwa [hs] at hbefore
    have hnew : s'.dev.heap.content 0 = some [9, 2, 3] := by
      unfold firstAfter at hafter
      rw [hs] at hafter
      simp only [Except.toOption, Option.bind_eq_bind, Option.bind_some, run, hstep, ok_bind] at hafter
      exact hafter
    have hlive : s.dev.heap.bufs 0 ≠ none := by
      intro hnone
      simp [RefHeap.content, hnone] at hold
    have := hcontent 0 (by rw [hbuf]; decide) Op.noConfusion hlive
    rw [hold, hnew] at this
    exact absurd this (by decide)

/-- The start state after moving slot 1 in exposes no write. -/
def pairUnexposed (ops : List Op) : Bool :=
  match ofBuffer (fun _ _ => 0) sharedPair 1 with
  | .ok s => unexposed s ops
  | .error _ => false

/-- Once the buffer has been taken, the flag is clear and the next write clones the block. -/
theorem sharedPair_isolated :
    ∃ s, ofBuffer (fun _ _ => 0) sharedPair 1 = .ok s ∧
      unexposed s [.getBuffer false, .put 9] = true ∧ Isolated s [.getBuffer false, .put 9] := by
  obtain ⟨h, hi⟩ : ∃ h, sharedPair.bufs 1 = some h :=
    Option.isSome_iff_exists.mp (by decide +kernel)
  obtain ⟨B, hb, ht⟩ : ∃ B, sharedPair.blks h.blk = some B ∧ B.tag = .copyOnWrite := by
    have : ((sharedPair.bufs 1).bind fun h => (sharedPair.blks h.blk).map (·.tag)) =
        some .copyOnWrite := by decide +kernel
    rw [hi] at this
    exact Option.map_eq_some_iff.mp this
  obtain ⟨s, hs, hiso⟩ := (writes_isolated (fun _ _ => 0) sharedPair sharedPair_wf
    [.getBuffer false, .put 9]).2 1 h B hi hb ht
  have hun : pairUnexposed [.getBuffer false, .put 9] = true := by decide +kernel
  unfold pairUnexposed at hun
  rw [hs] at hun
  exact ⟨s, hs, hun, hiso hun⟩

end Nodeoze.Bstream.Obmembuf
