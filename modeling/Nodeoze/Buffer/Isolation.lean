import Nodeoze.Buffer.Representation

/-!
# Copy on write isolates the handles

Where every block is `copy_on_write` or `exclusive`, an allowed operation on one handle leaves the
bytes seen through every other handle as they were, however the handles came to share their blocks.
The statement is about the release build: after an `append` that reallocates, the handle's `m_data`
points into memory that was given back, and the next store through it goes there.
-/

namespace Nodeoze.Buffer

open RefHeap Splice

section

variable (junk : Nat → Nat → UInt8)

/-- A run of the release build. -/
def execRun (H : Heap) : List Op → Option Heap
  | [] => some H
  | op :: ops => (exec junk H op).bind fun H' => execRun H' ops

/-- Every operation of the run is allowed in the heap it is applied to. -/
def allowsExec (H : Heap) : List Op → Bool
  | [] => true
  | op :: ops => allows H op &&
    match exec junk H op with
    | none => true
    | some H' => allowsExec H' ops

variable {H : Heap}

theorem exec_of_step {H' : Heap} {op : Op} (h : step junk H op = some H') :
    exec junk H op = some H' := by
  unfold step at h
  split_ifs at h
  cases hexec : exec junk H op with
  | none => simp [hexec] at h
  | some H₁ =>
    simp only [hexec, Option.bind_eq_bind, Option.bind_some] at h
    split_ifs at h
    exact h

/-- The operation leaves every handle but its own as it was. -/
def Isolates (H : Heap) (op : Op) : Prop :=
  ∃ H', exec junk H op = some H' ∧ ∀ j, j ≠ op.target H → H'.content j = H.content j

theorem Inv.isolates (inv : Inv H) (g : Guarded H) {op : Op} (hallow : allows H op = true)
    (hiso : isolating op = true) :
    ∃ H', exec junk H op = some H' ∧ Inv H' ∧ Guarded H' ∧
      ∀ j, j ≠ op.target H → H'.content j = H.content j := by
  obtain ⟨H', hstep, hout⟩ := inv.step junk hallow
  obtain ⟨hframe, g'⟩ := hout.isolated hiso g
  exact ⟨H', exec_of_step junk hstep, hout.inv, g', hframe.content⟩

theorem Inv.execRun (inv : Inv H) (g : Guarded H) {ops : List Op}
    (hallow : allowsExec junk H ops = true) (hiso : ∀ op ∈ ops, isolating op = true) (n : Nat) :
    ∃ H', execRun junk H (ops.take n) = some H' ∧
      ∀ op ∈ ops[n]?, Isolates junk H' op := by
  induction ops generalizing H n with
  | nil => exact ⟨H, by simp [Buffer.execRun], by simp⟩
  | cons op ops ih =>
    simp only [allowsExec, Bool.and_eq_true] at hallow
    obtain ⟨H₁, hexec, inv₁, g₁, hsame⟩ := inv.isolates junk g hallow.1 (hiso op (by simp))
    cases n with
    | zero =>
      refine ⟨H, rfl, ?_⟩
      intro op' hop'
      obtain rfl : op = op' := by simpa using hop'
      exact ⟨H₁, hexec, hsame⟩
    | succ n =>
      have hrest := hallow.2
      rw [hexec] at hrest
      obtain ⟨H', hrun, hiso'⟩ := ih inv₁ g₁ hrest (fun o ho => hiso o (by simp [ho])) n
      exact ⟨H', by simp [Buffer.execRun, hexec, hrun], by simpa using hiso'⟩

/-- At every point of an allowed run over `copy_on_write` and `exclusive` blocks, the next operation
is defined and changes the bytes of no handle but its own. -/
theorem buffers_isolated (ops : List Op) (hallow : allowsExec junk RefHeap.empty ops = true)
    (hiso : ∀ op ∈ ops, isolating op = true) (n : Nat) :
    ∃ H, execRun junk RefHeap.empty (ops.take n) = some H ∧ ∀ op ∈ ops[n]?, Isolates junk H op := by
  have g : Guarded RefHeap.empty := fun _ _ hb => nomatch hb
  exact Inv.empty.execRun junk g hallow hiso n

end

/-- Slices of copies of one buffer, each changed while the others look on. -/
def slicesRun : List Op :=
  [.construct [1, 2, 3, 4, 5, 6] .copyOnWrite, .slice 0 1 4 false, .copyConstruct 1,
    .slice 2 1 2 false, .put 1 0 [9], .fill 2 7, .append 3 [8], .rotate 0 0 3 6, .size 1 2,
    .assign 1 [5, 5], .setPolicy 3 .exclusive, .copyConstruct 3, .clear 3, .forceUnique 4]

theorem slicesRun_isolated :
    allowsExec (fun _ _ => 0) RefHeap.empty slicesRun = true ∧
      (∀ op ∈ slicesRun, isolating op = true) ∧
      ∀ n, ∃ H, execRun (fun _ _ => 0) RefHeap.empty (slicesRun.take n) = some H ∧
        ∀ op ∈ slicesRun[n]?, Isolates (fun _ _ => 0) H op :=
  ⟨by decide, by decide, buffers_isolated (fun _ _ => 0) slicesRun (by decide) (by decide)⟩

/-- After an `append` that reallocates, a `put` in range stores through a pointer into the memory that
was given back; and a `rotate` whose bounds pass the check stores behind the end of its block. -/
theorem stores_astray :
    (∃ H, execRun (fun _ _ => 0) RefHeap.empty
        [.construct [1, 2] .copyOnWrite, .append 0 [3], .construct [4, 5] .copyOnWrite] = some H ∧
      sizeOf H 0 = 2 ∧ ¬ Isolates (fun _ _ => 0) H (.put 0 0 [9])) ∧
    ∃ H, execRun (fun _ _ => 0) RefHeap.empty
        [.construct [1, 2, 3, 4] .copyOnWrite, .construct [5, 6] .copyOnWrite] = some H ∧
      ¬ Isolates (fun _ _ => 0) H (.rotate 0 3 0 4) := by
  refine ⟨⟨_, rfl, rfl, ?_⟩, ⟨_, rfl, ?_⟩⟩
  · rintro ⟨H', hput, -⟩
    cases hput
  · rintro ⟨H', hrotate, -⟩
    cases hrotate

end Nodeoze.Buffer
