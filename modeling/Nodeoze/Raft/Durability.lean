import Nodeoze.Raft.LogSpec

/-!
# What survives a restart

A run of the log is followed by an abstract file: the frames that are in the file, and the phase of
the descriptor.  Two things go wrong in the code.  A frame that is written after `prune_back` has
cut the file goes behind a hole, unless the file was opened to append; and `prune_back` cuts off
the frames of the hard state together with the updates in front of them.  In a run without these
the file always holds the updates and the hard state that are in memory.
-/

namespace Nodeoze.Raft

open Reader Bstream Obfilebuf Posix

/-- The log file as it should be. -/
structure FileSpec where
  frames : List Frame
  phase : Phase

def FileSpec.next (F : FileSpec) (L : Log) : Op → FileSpec
  | .append ep =>
    { F with frames := F.frames ++ [.stateMachineUpdate { ep with pos := endPos F.frames }] }
  | .updateReplicantState self t v =>
    if self = L.state.self then { F with frames := stateFrames F.frames (L.state.update t v) } else F
  | .pruneFront index => ⟨L.cutFrontFile index F.frames, L.cutFrontPhase index F.phase⟩
  | .pruneBack index => ⟨L.cutFile index F.frames, L.cutPhase index F.phase⟩

namespace Op

/-- The operation writes at the end of the file. -/
def writes (L : Log) : Op → Bool
  | .append _ => true
  | .updateReplicantState self t v => self == L.state.self && (L.state.update t v).dirty
  | _ => false

/-- The term and the vote after the operation. -/
def hardState (L : Log) : Op → UInt64 × UInt64
  | .updateReplicantState self t v =>
    if self = L.state.self then (t, v) else (L.state.term, L.state.vote)
  | _ => (L.state.term, L.state.vote)

/-- What the log expects of its caller: frames whose size is a 32-bit number, with consecutive
indices if `q` asks for it, and no pruning of an empty log. -/
def Admissible (q : Prop) (L : Log) : Op → Prop
  | .append ep => ep.Small ∧ (q → ∀ a ∈ L.log.getLast?, Follows a ep)
  | .updateReplicantState .. => True
  | .pruneFront _ => L.log ≠ []
  | .pruneBack _ => L.log ≠ []

/-- The part of the file that `prune_back` leaves has the same last hard state as the whole. -/
def KeepsState (F : FileSpec) (L : Log) : Op → Prop
  | .pruneBack index => lastState (1, 0) (L.cutFile index F.frames) = lastState (1, 0) F.frames
  | _ => True

/-- Nothing is written after a cut. -/
def Placeable (F : FileSpec) (L : Log) (op : Op) : Prop := op.writes L = true → F.phase ≠ .cut

end Op

instance (q : Prop) [Decidable q] (L : Log) : (op : Op) → Decidable (op.Admissible q L)
  | .append ep => inferInstanceAs (Decidable (ep.Small ∧ (q → ∀ a ∈ L.log.getLast?, Follows a ep)))
  | .updateReplicantState .. => isTrue trivial
  | .pruneFront _ => inferInstanceAs (Decidable (L.log ≠ []))
  | .pruneBack _ => inferInstanceAs (Decidable (L.log ≠ []))

instance (F : FileSpec) (L : Log) : (op : Op) → Decidable (op.KeepsState F L)
  | .pruneBack index => inferInstanceAs
      (Decidable (lastState (1, 0) (L.cutFile index F.frames) = lastState (1, 0) F.frames))
  | .append _ => isTrue trivial
  | .updateReplicantState .. => isTrue trivial
  | .pruneFront _ => isTrue trivial

instance (F : FileSpec) (L : Log) (op : Op) : Decidable (op.Placeable F L) :=
  inferInstanceAs (Decidable (op.writes L = true → F.phase ≠ .cut))

/-- Every step of the run meets the condition. -/
def Steps (ok : FileSpec → Log → Op → Prop) : FileSpec → Log → List Op → Prop
  | _, _, [] => True
  | F, L, op :: ops =>
    ok F L op ∧
    match L.step op with
    | .ok (L', _) => Steps ok (F.next L op) L' ops
    | .error _ => True

instance Steps.decide (ok : FileSpec → Log → Op → Prop) [∀ F L op, Decidable (ok F L op)]
    (F : FileSpec) (L : Log) : (ops : List Op) → Decidable (Steps ok F L ops)
  | [] => isTrue trivial
  | op :: ops => by
    have hrest : Decidable (match L.step op with
        | .ok (L', _) => Steps ok (F.next L op) L' ops
        | .error _ => True) :=
      match L.step op with
      | .ok (L', _) => Steps.decide ok (F.next L op) L' ops
      | .error _ => isTrue trivial
    exact instDecidableAnd

section

variable {q : Prop} {z : Site} {F : FileSpec} {L : Log} {ok : FileSpec → Log → Op → Prop}
  {I : FileSpec → Log → Prop}

theorem run_append (L : Log) (ops ops' : List Op) :
    L.run (ops ++ ops') = (L.run ops >>= fun L => L.run ops') := by
  induction ops generalizing L with
  | nil => rfl
  | cons op ops ih =>
    simp only [List.cons_append, Log.run, bind_assoc]
    exact congrArg _ (funext fun r => ih r.1)

theorem Steps.left {ops ops' : List Op} (h : Steps ok F L (ops ++ ops')) : Steps ok F L ops := by
  induction ops generalizing F L with
  | nil => trivial
  | cons op ops ih =>
    refine ⟨h.1, ?_⟩
    have hrest := h.2
    rcases hres : L.step op with e | ⟨L₁, err⟩
    · trivial
    · rw [hres] at hrest
      exact ih hrest

/-- An invariant that the steps keep holds at the end of the run. -/
theorem Steps.run (hkeep : ∀ {F L op}, I F L → ok F L op →
      Ends IsErrno (L.step op) fun r => I (F.next L op) r.1)
    {ops : List Op} (h : Steps ok F L ops) (hI : I F L) :
    Ends IsErrno (L.run ops) fun L' => ∃ G, I G L' := by
  induction ops generalizing F L with
  | nil => exact .ok ⟨F, hI⟩
  | cons op ops ih =>
    obtain ⟨hok, hrest⟩ := h
    refine (hkeep hI hok).bind_ok ?_
    rintro ⟨L₁, err⟩ hres hI₁
    rw [hres] at hrest
    exact ih hrest hI₁

/-- The log follows the abstract file. -/
def Follow (q : Prop) (z : Site) (F : FileSpec) (L : Log) : Prop :=
  (∃ i, Inv q z L i F.frames) ∧ F.phase.Admits L.os

/-- One operation: the log goes on to follow the abstract file. -/
theorem step_spec {op : Op} (h : Follow q z F L) (hadm : op.Admissible q L)
    (hplace : op.Placeable F L) :
    Ends IsErrno (L.step op) fun r =>
      Follow q z (F.next L op) r.1 ∧ (r.1.state.term, r.1.state.vote) = op.hardState L := by
  obtain ⟨⟨i, hinv⟩, hph⟩ := h
  cases op with
  | append ep =>
    refine (append_spec hinv hph (hplace rfl) hadm.2 hadm.1).bind ?_
    rintro L' ⟨hinv', hph', hstate, -⟩
    refine .ok ⟨⟨⟨i, hinv'⟩, hph'⟩, ?_⟩
    rw [hstate]
    rfl
  | updateReplicantState self t v =>
    by_cases hself : self = L.state.self
    · have hne : (L.state.update t v).dirty = true → F.phase ≠ .cut := by
        intro hdirty
        apply hplace
        simp [Op.writes, hself, hdirty]
      rw [hself, hinv.owner]
      refine (updateReplicantState_spec hinv hph hne).imp ?_
      rintro r ⟨hinv', hph', hstate, -⟩
      simp only [FileSpec.next, Op.hardState, ← hinv.owner, if_true]
      exact ⟨⟨⟨i, hinv'⟩, hph'⟩, hstate⟩
    · have hcall : L.step (.updateReplicantState self t v) =
          .ok (L, some (.fault (.log .logServerIdError))) := by
        show L.updateReplicantState self t v = _
        rw [Log.updateReplicantState, ReplicantState.updateFrom, if_pos hself]
        rfl
      rw [hcall]
      simp only [FileSpec.next, Op.hardState, if_neg hself]
      exact .ok ⟨⟨⟨i, hinv⟩, hph⟩, rfl⟩
  | pruneFront index =>
    refine (pruneFront_spec hinv hph hadm index).imp ?_
    rintro r ⟨j, hinv', hph', hstate⟩
    exact ⟨⟨⟨j, hinv'⟩, hph'⟩, hstate⟩
  | pruneBack index =>
    refine (pruneBack_spec hinv hph hadm index).imp ?_
    rintro r ⟨hinv', hph', hstate⟩
    refine ⟨⟨⟨i, hinv'⟩, hph'⟩, ?_⟩
    rw [hstate]
    rfl

/-! ### The updates -/

/-- With consecutive indices a log that follows its file is found again. -/
theorem Follow.restart (h : Follow True z F L) (id : UInt64) (junk : Nat → Nat → UInt8) :
    Ends IsErrno ((Log.create id z.path z.temp L.world).restart junk z.self) fun r =>
      r.2 = none ∧ r.1.log = L.log ∧
      (r.1.state.term, r.1.state.vote) = lastState (1, 0) F.frames := by
  obtain ⟨⟨i, hinv⟩, -⟩ := h
  obtain rfl := hinv.site
  obtain ⟨hes, -⟩ := hinv.file.exact trivial
  have hfile := hinv.file
  rw [hes] at hfile
  refine ((restart_spec id hinv.paths hinv.disk hfile junk).allow fun _ => isErrno_of_tooBig).imp ?_
  rintro r ⟨herr, hlog, hstate, -⟩
  exact ⟨herr, hlog.trans hes.symm, hstate⟩

/-- The condition on a step of a run with consecutive indices. -/
def SoundStep (F : FileSpec) (L : Log) (op : Op) : Prop :=
  op.Admissible True L ∧ op.Placeable F L

instance (F : FileSpec) (L : Log) (op : Op) : Decidable (SoundStep F L op) := instDecidableAnd

/-- The file that `initialise` leaves. -/
def initialFile (me t v : UInt64) : FileSpec :=
  ⟨[.replicantState (stateAt [] ((ReplicantState.create me).update t v))], .fresh⟩

end

section

variable {me : UInt64} {path temp : String} {world : World String}

/-- A run that starts with `initialise` and writes nothing after a cut, in which every system call
succeeds, can be restarted: a new log object has the same updates. -/
theorem entries_survive (hne : path ≠ temp) (hwf : world.disk.WF) (t v : UInt64) (ops : List Op)
    (hsound : ∀ L, (Log.create me path temp world).initialise me t v = .ok L →
      Steps SoundStep (initialFile me t v) L ops)
    (hcalls : ∀ x, ((Log.create me path temp world).initialise me t v >>= fun L => L.run ops) ≠
      .error (.errno x)) :
    ∃ L, ((Log.create me path temp world).initialise me t v >>= fun L => L.run ops) = .ok L ∧
      ∀ id junk, (∀ x, (Log.create id path temp L.world).restart junk me ≠ .error (.errno x)) →
        ∃ L', (Log.create id path temp L.world).restart junk me = .ok (L', none) ∧
          L'.log = L.log := by
  have hrun : Ends IsErrno ((Log.create me path temp world).initialise me t v >>= fun L => L.run ops)
      fun L => ∃ F, Follow True ⟨me, path, temp⟩ F L := by
    have hstart : Ends TooBig ((Log.create me path temp world).initialise me t v) _ :=
      initialise_spec (q := True) hne hwf t v
    refine (hstart.allow fun _ => isErrno_of_tooBig).bind_ok ?_
    rintro L₀ hinit ⟨i, hinv, -, -, hph⟩
    have hfollow : Follow True ⟨me, path, temp⟩ (initialFile me t v) L₀ := ⟨⟨i, hinv⟩, hph⟩
    refine Steps.run ?_ (hsound L₀ hinit) hfollow
    intro F L op hI hok
    exact (step_spec hI hok.1 hok.2).imp fun _ hr => hr.1
  obtain ⟨L, hL, F, hF⟩ := hrun.returns fun e ⟨x, hx⟩ => hx ▸ hcalls x
  refine ⟨L, hL, ?_⟩
  intro id junk hrestart
  obtain ⟨⟨L', err⟩, hL', herr, hlog, -⟩ :=
    (hF.restart id junk).returns fun e ⟨x, hx⟩ => hx ▸ hrestart x
  exact ⟨L', by rw [hL', show err = none from herr], hlog⟩

end

/-- A disk without files. -/
def bareWorld : World String := ⟨⟨fun _ => none, fun _ => [], 0⟩, []⟩

theorem bareWorld_wf : bareWorld.disk.WF := fun _ _ h => nomatch h

/-- A log that replicant 1 has started there, in term 1 and without a vote. -/
def started : Except Failure Log := (Log.create 1 "log" "tmp" bareWorld).initialise 1 1 0

/-- Pruning at the front opens the file to append, so that a cut does no harm later. -/
def prunedRun : List Op :=
  [.append ⟨-1, 1, 1, []⟩, .append ⟨-1, 1, 2, []⟩, .pruneFront 2, .append ⟨-1, 1, 3, []⟩,
    .pruneBack 2, .append ⟨-1, 1, 3, [7]⟩]

theorem prunedRun_survives : ∃ L L', (started >>= fun L => L.run prunedRun) = .ok L ∧
    (Log.create 1 "log" "tmp" L.world).restart (fun _ _ => 0) 1 = .ok (L', none) ∧
    L'.log = L.log := by
  have hsound : ∀ L, started = .ok L → Steps SoundStep (initialFile 1 1 0) L prunedRun := by
    have hall : started.map (fun L => decide (Steps SoundStep (initialFile 1 1 0) L prunedRun)) =
        .ok true := by decide +kernel
    intro L hL
    rw [hL] at hall
    exact of_decide_eq_true (Except.ok.inj hall)
  have hrun : (started >>= fun L => L.run prunedRun).map (fun L =>
      ((Log.create 1 "log" "tmp" L.world).restart (fun _ _ => 0) 1).map fun _ => ()) =
        .ok (.ok ()) := by decide +kernel
  obtain ⟨L, hL, hrestart⟩ := Fallible.map_eq_ok.mp hrun
  obtain ⟨r, hr, -⟩ := Fallible.map_eq_ok.mp hrestart
  have hcalls : ∀ x, (started >>= fun L => L.run prunedRun) ≠ .error (.errno x) := by
    intro x hx
    rw [hL] at hx
    cases hx
  obtain ⟨L₁, hL₁, hsurvive⟩ :=
    entries_survive (by decide) bareWorld_wf 1 0 prunedRun hsound hcalls
  obtain rfl := Except.ok.inj (hL.symm.trans hL₁)
  obtain ⟨L', hL', hlog⟩ := hsurvive 1 (fun _ _ => 0) (by
    intro x hx
    rw [hr] at hx
    cases hx)
  exact ⟨L, L', hL, hL', hlog⟩

/-- The frame of the last update is behind a hole. -/
def holeRun : List Op :=
  [.append ⟨-1, 1, 1, []⟩, .append ⟨-1, 1, 2, []⟩, .pruneBack 1, .append ⟨-1, 1, 2, [7]⟩]

theorem holeRun_lost : ∃ L L' err, (started >>= fun L => L.run holeRun) = .ok L ∧
    (Log.create 1 "log" "tmp" L.world).restart (fun _ _ => 0) 1 = .ok (L', some err) ∧
    L.log.length = 2 ∧ L'.log.length = 1 := by
  have hrun : (started >>= fun L => L.run holeRun).map (fun L =>
      (((Log.create 1 "log" "tmp" L.world).restart (fun _ _ => 0) 1).map fun r =>
        (r.2, r.1.log.length), L.log.length)) =
      .ok (.ok (some (.fault (.stream (.system .typeError))), 1), 2) := by decide +kernel
  obtain ⟨L, hL, h⟩ := Fallible.map_eq_ok.mp hrun
  obtain ⟨h1, h2⟩ := Prod.mk.inj h
  obtain ⟨⟨L', err⟩, hr, h3⟩ := Fallible.map_eq_ok.mp h1
  obtain ⟨h4, h5⟩ := Prod.mk.inj h3
  exact ⟨L, L', _, hL, by rw [hr, show err = _ from h4], h2, h5⟩

/-! ### The hard state -/

theorem ReplicantState.update_of_clean {s : ReplicantState} {t v : UInt64}
    (h : (s.update t v).dirty = false) : (t, v) = (s.term, s.vote) := by
  unfold ReplicantState.update ReplicantState.setVote ReplicantState.setTerm at h
  split_ifs at h
  simp_all

section

variable {z : Site} {F : FileSpec} {L : Log}

/-- Unless `prune_back` cuts it off, the last hard state in the file is the one in memory. -/
theorem lastState_next {op : Op} (h : lastState (1, 0) F.frames = (L.state.term, L.state.vote))
    (hkeeps : op.KeepsState F L) :
    lastState (1, 0) (F.next L op).frames = op.hardState L := by
  cases op with
  | append ep =>
    show lastState (1, 0) (F.frames ++ [.stateMachineUpdate _]) = _
    rw [lastState_append, h]
    rfl
  | updateReplicantState self t v =>
    simp only [FileSpec.next, Op.hardState]
    split_ifs with hself
    · show lastState (1, 0) (stateFrames F.frames (L.state.update t v)) = _
      unfold stateFrames
      split_ifs with hdirty
      · rw [lastState_concat]
        simp [stateAt]
      · have hsame := ReplicantState.update_of_clean (s := L.state) (by simpa using hdirty)
        rw [h, hsame]
    · exact h
  | pruneFront index =>
    show lastState (1, 0) (L.cutFrontFile index F.frames) = _
    unfold Log.cutFrontFile
    split_ifs
    · exact lastState_concat ..
    · exact h
  | pruneBack index => exact hkeeps.trans h

/-- The condition on a step of any run. -/
def StateStep (F : FileSpec) (L : Log) (op : Op) : Prop :=
  op.Admissible False L ∧ op.Placeable F L ∧ op.KeepsState F L

instance (F : FileSpec) (L : Log) (op : Op) : Decidable (StateStep F L op) := instDecidableAnd

/-- How a run starts: with a new file, or with one that a log has left. -/
inductive Starts (z : Site) : Log → FileSpec → Prop
  | initialise {world : World String} {t v : UInt64} {L : Log} (hwf : world.disk.WF)
      (h : (Log.create z.self z.path z.temp world).initialise z.self t v = .ok L) :
      Starts z L (initialFile z.self t v)
  | restart {world : World String} {id : UInt64} {junk : Nat → Nat → UInt8} {i : Nat}
      {fs : List Frame} {L : Log} {err : Option Code}
      (hd : OnDisk world.disk z.path z.temp i (encodeAll fs))
      (hf : Holds False z.self (entries fs) fs)
      (h : (Log.create id z.path z.temp world).restart junk z.self = .ok (L, err)) :
      Starts z L ⟨fs ++ [.replicantState L.state], .reopened⟩

/-- The log follows the file, and the file has its hard state. -/
def Hard (z : Site) (F : FileSpec) (L : Log) : Prop :=
  Follow False z F L ∧ lastState (1, 0) F.frames = (L.state.term, L.state.vote)

theorem Starts.hard (hne : z.path ≠ z.temp) (h : Starts z L F) : Hard z F L := by
  cases h with
  | @initialise world t v _ hwf h =>
    have hspec : Ends TooBig ((Log.create z.self z.path z.temp world).initialise z.self t v) _ :=
      initialise_spec (q := False) hne hwf t v
    obtain ⟨i, hinv, hstate, -, hph⟩ := hspec.of_ok h
    refine ⟨⟨⟨i, hinv⟩, hph⟩, ?_⟩
    rw [hstate]
    simp [initialFile, lastState, stateAt]
  | @restart world id junk i fs _ err hd hf h =>
    obtain ⟨-, -, hstate, hinv, hph⟩ := (restart_spec id hne hd hf junk).of_ok h
    exact ⟨⟨⟨i, hinv⟩, hph⟩, lastState_concat ..⟩

/-- At every point of a run that meets the condition, `recover` finds the hard state that is in
memory. -/
theorem hardState_recovered (hne : z.path ≠ z.temp) (hstart : Starts z L F) {ops : List Op}
    (hsound : Steps StateStep F L ops) (hcalls : ∀ x, L.run ops ≠ .error (.errno x))
    {done : List Op} (hdone : done <+: ops) (junk : Nat → Nat → UInt8) :
    ∃ L' R, L.run done = .ok L' ∧
      (Log.create z.self z.path z.temp L'.world).recover junk = (R, none) ∧
      (R.state.term, R.state.vote) = (L'.state.term, L'.state.vote) := by
  obtain ⟨rest, rfl⟩ := hdone
  have hrun : Ends IsErrno (L.run done) fun L' => ∃ G, Hard z G L' := by
    refine Steps.run ?_ hsound.left (hstart.hard hne)
    intro F L op hI hok
    refine (step_spec hI.1 hok.1 hok.2.1).imp ?_
    rintro r ⟨hfollow, hstate⟩
    exact ⟨hfollow, by rw [hstate]; exact lastState_next hI.2 hok.2.2⟩
  have hdone : ∀ e, IsErrno e → L.run done ≠ .error e := by
    rintro e ⟨x, rfl⟩ herr
    apply hcalls x
    rw [run_append, herr]
    rfl
  obtain ⟨L', hL', G, ⟨⟨i, hinv⟩, -⟩, hlast⟩ := hrun.returns hdone
  obtain rfl := hinv.site
  have hfile : Holds False L'.self (entries G.frames) G.frames :=
    { hinv.file with sub := List.Sublist.refl _, exact := fun hfalse => hfalse.elim }
  obtain ⟨s, hrecover, -, hs⟩ := recover_spec
    (L := Log.create L'.self L'.logPathname L'.logTempPathname L'.world) hinv.disk hfile rfl junk
  exact ⟨L', _, hL', hrecover, hs.trans hlast⟩

/-- A vote in the second term, then an update that is pruned again. -/
def votedRun : List Op :=
  [.append ⟨-1, 1, 1, []⟩, .updateReplicantState 1 2 3, .append ⟨-1, 2, 2, []⟩, .pruneBack 1]

theorem votedRun_recovered : ∃ L L' R, started = .ok L ∧ L.run votedRun = .ok L' ∧
    (Log.create 1 "log" "tmp" L'.world).recover (fun _ _ => 0) = (R, none) ∧
    (R.state.term, R.state.vote) = (L'.state.term, L'.state.vote) := by
  have hall : started.map (fun L => (decide (Steps StateStep (initialFile 1 1 0) L votedRun),
      (L.run votedRun).map fun _ => ())) = .ok (true, .ok ()) := by decide +kernel
  obtain ⟨L, hL, h⟩ := Fallible.map_eq_ok.mp hall
  obtain ⟨hsound, hrun⟩ := Prod.mk.inj h
  obtain ⟨L₁, hL₁, -⟩ := Fallible.map_eq_ok.mp hrun
  have hstart : Starts ⟨1, "log", "tmp"⟩ L (initialFile 1 1 0) := .initialise bareWorld_wf hL
  obtain ⟨L', R, hL', hR, hsame⟩ := hardState_recovered (by decide) hstart
    (of_decide_eq_true hsound) (fun x hx => by rw [hL₁] at hx; cases hx) (List.prefix_refl _)
    (fun _ _ => 0)
  exact ⟨L, L', R, hL, hL', hR, hsame⟩

/-- The vote is in the file behind the update that is pruned. -/
def lostVoteRun : List Op :=
  [.append ⟨-1, 1, 1, []⟩, .append ⟨-1, 1, 2, []⟩, .updateReplicantState 1 2 3, .pruneBack 1]

theorem lostVoteRun_lost : ∃ L R, (started >>= fun L => L.run lostVoteRun) = .ok L ∧
    (Log.create 1 "log" "tmp" L.world).recover (fun _ _ => 0) = (R, none) ∧
    (L.state.term, L.state.vote) = (2, 3) ∧ (R.state.term, R.state.vote) = (1, 0) := by
  have hrun : (started >>= fun L => L.run lostVoteRun).map (fun L =>
      ((L.state.term, L.state.vote), ((Log.create 1 "log" "tmp" L.world).recover fun _ _ => 0).2,
        ((Log.create 1 "log" "tmp" L.world).recover fun _ _ => 0).1.state.term,
        ((Log.create 1 "log" "tmp" L.world).recover fun _ _ => 0).1.state.vote)) =
      .ok ((2, 3), none, 1, 0) := by decide +kernel
  obtain ⟨L, hL, h⟩ := Fallible.map_eq_ok.mp hrun
  obtain ⟨h1, h2⟩ := Prod.mk.inj h
  obtain ⟨h3, h4⟩ := Prod.mk.inj h2
  refine ⟨L, ((Log.create 1 "log" "tmp" L.world).recover fun _ _ => 0).1, hL, ?_, h1, h4⟩
  rw [← h3]

end

end Nodeoze.Raft
