import Nodeoze.Raft.Durability

/-!
# Stopping in the middle of `prune_front`

`prune_front` writes what it keeps to a temporary file and renames it.  The disks that it goes
through are those in which the log is still the old one, and the last, in which it is the new one;
`restart` removes a temporary file that was left behind.
-/

namespace Nodeoze.Raft

open Reader Bstream Obfilebuf Posix

section

variable {q : Prop} {z : Site} {L : Log} {i : Nat} {fs : List Frame}

/-- In a log with increasing indices `prune_front` keeps the updates from the index on. -/
theorem keptFrom_eq_filter (index : UInt64) {es : List StateMachineUpdate}
    (h : es.Pairwise fun a b => a.index < b.index) :
    keptFrom index es = es.filter fun e => index ≤ e.index := by
  induction es with
  | nil => rfl
  | cons e es ih =>
    obtain ⟨he, hes⟩ := List.pairwise_cons.mp h
    unfold keptFrom at ih ⊢
    by_cases hlt : e.index < index
    · rw [List.dropWhile_cons_of_pos (by simpa using hlt), ih hes, List.filter_cons_of_neg]
      simpa using hlt
    · have hle := UInt64.not_lt.mp hlt
      rw [List.dropWhile_cons_of_neg (by simpa using hlt), List.filter_eq_self.mpr]
      intro a ha
      rcases List.mem_cons.mp ha with rfl | ha
      · simpa using hle
      · simpa using UInt64.le_of_lt (UInt64.lt_of_le_of_lt hle (he a ha))

/-- A disk with the frames `fs` in the log file is one from which the log can be restarted, with
the updates `es` and the hard state `s`. -/
def Restarts (z : Site) (d : Disk String) (es : List StateMachineUpdate) (s : UInt64 × UInt64) :
    Prop :=
  ∀ (world : World String) (id : UInt64) (junk : Nat → Nat → UInt8), world.disk = d →
    (∀ x, (Log.create id z.path z.temp world).restart junk z.self ≠ .error (.errno x)) →
    ∃ R, (Log.create id z.path z.temp world).restart junk z.self = .ok (R, none) ∧
      R.log.map StateMachineUpdate.value = es.map StateMachineUpdate.value ∧
      (R.state.term, R.state.vote) = s

theorem restarts_of_onDisk {d : Disk String} (hne : z.path ≠ z.temp)
    (hd : OnDisk d z.path z.temp i (encodeAll fs)) {ks es : List StateMachineUpdate}
    (hf : Holds q z.self ks fs)
    (hes : (entries fs).map StateMachineUpdate.value = es.map StateMachineUpdate.value) :
    Restarts z d es (lastState (1, 0) fs) := by
  rintro world id junk rfl hcalls
  have hfile : Holds False z.self (entries fs) fs :=
    { hf with sub := List.Sublist.refl _, exact := fun hfalse => hfalse.elim }
  have hspec := restart_spec id hne hd hfile junk
  obtain ⟨⟨R, err⟩, hR, herr, hlog, hstate, -⟩ := hspec.returns fun e he => he ▸ hcalls .fbig
  refine ⟨R, by rw [hR, show err = none from herr], ?_, hstate⟩
  rw [show R.log = entries fs from hlog, hes]

end

def threeUpdates : List Op :=
  [.append ⟨-1, 1, 1, [4]⟩, .append ⟨-1, 1, 2, [5]⟩, .append ⟨-1, 1, 3, [6]⟩]

end Nodeoze.Raft
