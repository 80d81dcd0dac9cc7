import Nodeoze.Raft.Durability

/-!
# Whose log it is

The owner of a log is in the object, in the hard state and in every frame of the hard state.  The
constructor sets the first two, and `restart` does; `initialize` sets the one in the object alone.
A log that was constructed with one id and initialised with another writes frames of the first, and
takes no update of the second.
-/

namespace Nodeoze.Raft

open Reader Bstream Obfilebuf Posix

/-- A run together with what its calls report. -/
def Log.report (L : Log) : List Op → Except Failure (Log × List (Option Code))
  | [] => pure (L, [])
  | op :: ops => do
    let (L, err) ← L.step op
    let (L, errs) ← report L ops
    pure (L, err :: errs)

/-- What an owner does with its log between two starts: it appends, and updates its hard state. -/
def Op.IsOwners (self : UInt64) : Op → Prop
  | .append _ => True
  | .updateReplicantState id _ _ => id = self
  | _ => False

instance (self : UInt64) : (op : Op) → Decidable (op.IsOwners self)
  | .append _ => isTrue trivial
  | .updateReplicantState id _ _ => inferInstanceAs (Decidable (id = self))
  | .pruneFront _ => isFalse id
  | .pruneBack _ => isFalse id

/-- The frame that the operation writes has a 32-bit size. -/
def Op.Small : Op → Prop
  | .append ep => ep.Small
  | _ => True

instance : (op : Op) → Decidable op.Small
  | .append ep => inferInstanceAs (Decidable ep.Small)
  | .updateReplicantState .. => isTrue trivial
  | .pruneFront _ => isTrue trivial
  | .pruneBack _ => isTrue trivial

/-- The term and the vote of the last update. -/
def lastUpdate (d : UInt64 × UInt64) (ops : List Op) : UInt64 × UInt64 :=
  ops.foldl (fun d op => match op with
    | .updateReplicantState _ t v => (t, v)
    | _ => d) d

/-- The error of a state of another replicant. -/
def serverIdError : Code := .fault (.log .logServerIdError)

/-- `restart( self )` on the files of `L`, by a new log object, finds this hard state. -/
def Log.RestartsWith (L : Log) (self : UInt64) (hard : UInt64 × UInt64) : Prop :=
  ∀ id junk,
    (∀ x, (Log.create id L.logPathname L.logTempPathname L.world).restart junk self ≠ .error (.errno x)) →
    ∃ R, (Log.create id L.logPathname L.logTempPathname L.world).restart junk self = .ok (R, none) ∧
      (R.state.term, R.state.vote) = hard

/-- The owner `self` of a log that was constructed for `c` does not get the error of another's
state, and can restart the log. -/
def OwnerRestarts (start : Except Failure Log) (self t v : UInt64) (ops : List Op) : Prop :=
  ∃ L errs, (start >>= fun L => L.report ops) = .ok (L, errs) ∧ some serverIdError ∉ errs ∧
    L.RestartsWith self (lastUpdate (t, v) ops)

section

variable {c self t v : UInt64} {path temp : String} {world : World String} {L : Log} {i : Nat}

/-! ### The owner that constructed the log -/

/-- A log that follows a file of which nothing was cut. -/
def Grows (z : Site) (L : Log) : Prop :=
  ∃ F : FileSpec, F.phase = .fresh ∧ Hard z F L

theorem Grows.step {z : Site} {op : Op} (h : Grows z L) (howner : op.IsOwners z.self)
    (hsmall : op.Small) :
    Ends IsErrno (L.step op) fun r => Grows z r.1 ∧
      (r.1.state.term, r.1.state.vote) = lastUpdate (L.state.term, L.state.vote) [op] := by
  obtain ⟨F, hphase, hfollow, hlast⟩ := h
  obtain ⟨i, hinv⟩ := hfollow.1
  have hself : L.state.self = z.self := by
    rw [hinv.owner, ← hinv.site]
    rfl
  have hplace : op.Placeable F L := by
    intro _
    rw [hphase]
    decide
  cases op with
  | append ep =>
    have hadm : (Op.append ep).Admissible False L := ⟨hsmall, fun hfalse => hfalse.elim⟩
    have hkeeps : (Op.append ep).KeepsState F L := trivial
    refine (step_spec hfollow hadm hplace).imp ?_
    rintro r ⟨hfollow', hstate⟩
    refine ⟨⟨F.next L (.append ep), hphase, hfollow', ?_⟩, hstate⟩
    rw [hstate]
    exact lastState_next hlast hkeeps
  | updateReplicantState id t' v' =>
    have hadm : (Op.updateReplicantState id t' v').Admissible False L := trivial
    have hkeeps : (Op.updateReplicantState id t' v').KeepsState F L := trivial
    refine (step_spec hfollow hadm hplace).imp ?_
    rintro r ⟨hfollow', hstate⟩
    have hid : id = L.state.self := Eq.trans howner hself.symm
    have hnext : (F.next L (.updateReplicantState id t' v')).phase = .fresh := by
      simp only [FileSpec.next, if_pos hid]
      exact hphase
    refine ⟨⟨F.next L (.updateReplicantState id t' v'), hnext, hfollow', ?_⟩, ?_⟩
    · rw [hstate]
      exact lastState_next hlast hkeeps
    · rw [hstate, Op.hardState, if_pos hid]
      rfl
  | pruneFront index => exact howner.elim
  | pruneBack index => exact howner.elim

/-- The owner's calls report nothing. -/
theorem step_reports {op : Op} {L' : Log} {err : Option Code} (howner : op.IsOwners L.state.self)
    (h : L.step op = .ok (L', err)) : err = none := by
  cases op with
  | append ep =>
    obtain ⟨L₁, -, h₁⟩ := Fallible.bind_eq_ok.mp h
    exact (Prod.mk.inj (Except.ok.inj h₁)).2.symm
  | updateReplicantState id t' v' =>
    have hid : id = L.state.self := howner
    have hcall : L.updateReplicantState id t' v' = .ok (L', err) := h
    rw [Log.updateReplicantState, ReplicantState.updateFrom, if_neg (not_not.mpr hid)] at hcall
    simp only at hcall
    split_ifs at hcall with hdirty
    · obtain ⟨L₁, -, h₁⟩ := Fallible.bind_eq_ok.mp hcall
      exact (Prod.mk.inj (Except.ok.inj h₁)).2.symm
    · exact (Prod.mk.inj (Except.ok.inj hcall)).2.symm
  | pruneFront index => exact howner.elim
  | pruneBack index => exact howner.elim

theorem lastUpdate_cons (d : UInt64 × UInt64) (op : Op) (ops : List Op) :
    lastUpdate d (op :: ops) = lastUpdate (lastUpdate d [op]) ops := rfl

theorem Grows.report {z : Site} {ops : List Op} (howner : ∀ op ∈ ops, op.IsOwners z.self)
    (hsmall : ∀ op ∈ ops, op.Small) (h : Grows z L) :
    Ends IsErrno (L.report ops) fun r => Grows z r.1 ∧ (∀ err ∈ r.2, err = none) ∧
      (r.1.state.term, r.1.state.vote) = lastUpdate (L.state.term, L.state.vote) ops := by
  induction ops generalizing L with
  | nil => exact .ok ⟨h, by simp, rfl⟩
  | cons op ops ih =>
    obtain ⟨hop, hops⟩ := List.forall_mem_cons.mp howner
    obtain ⟨hop', hops'⟩ := List.forall_mem_cons.mp hsmall
    have hself : L.state.self = z.self := by
      obtain ⟨F, -, ⟨⟨i, hinv⟩, -⟩, -⟩ := h
      rw [hinv.owner, ← hinv.site]
      rfl
    refine (h.step hop hop').bind_ok ?_
    rintro ⟨L₁, err⟩ hcall ⟨h₁, hstate₁⟩
    have herr : err = none := step_reports (hself ▸ hop) hcall
    refine (ih hops hops' h₁).bind ?_
    rintro ⟨L₂, errs⟩ ⟨h₂, herrs, hstate₂⟩
    refine .ok ⟨h₂, List.forall_mem_cons.mpr ⟨herr, herrs⟩, ?_⟩
    rw [lastUpdate_cons, ← hstate₁]
    exact hstate₂

theorem Grows.restarts {z : Site} (h : Grows z L) :
    L.RestartsWith z.self (L.state.term, L.state.vote) := by
  obtain ⟨F, -, ⟨⟨i, hinv⟩, -⟩, hlast⟩ := h
  have hsite : L.self = z.self := by
    rw [← hinv.site]
    rfl
  have hfile : Holds False z.self (entries F.frames) F.frames :=
    hsite ▸ { hinv.file with sub := List.Sublist.refl _, exact := fun hfalse => hfalse.elim }
  intro id junk hcalls
  obtain ⟨⟨R, err⟩, hR, herr, -, hstate, -⟩ :=
    (restart_spec id hinv.paths hinv.disk hfile junk).returns (by
      rintro e ⟨x, rfl⟩
      exact hcalls _)
  have hnone : err = none := herr
  rw [hnone] at hR
  exact ⟨R, hR, hstate.trans hlast⟩

/-! ### Another owner -/

/-- The log belongs to replicant `c`, and its file starts with a hard state of `c`. -/
structure Headed (c : UInt64) (L : Log) (i : Nat) : Prop where
  paths : L.logPathname ≠ L.logTempPathname
  owner : L.state.self = c
  file : ∃ s fs, s.self = c ∧
    OnDisk L.world.disk L.logPathname L.logTempPathname i (encodeAll (.replicantState s :: fs)) ∧
    ((Shut L.os ∧ L.os.dirty = false) ∨
      ∃ app, Rests L.os i app (encodeAll (.replicantState s :: fs)) ∧ Aligned L.os)

theorem Headed.append (h : Headed c L i) (ep : StateMachineUpdate) :
    Ends IsErrno (L.append ep) fun L' => Headed c L' i := by
  obtain ⟨s, fs, hs, hd, ⟨hshut, -⟩ | ⟨app, hr, ha⟩⟩ := h.file
  · unfold Log.append
    refine Ends.bind (writeFrame_shut hshut _) ?_
    exact fun _ hfalse => hfalse.elim
  · rw [Log.append]
    refine ((rests_writeFrame hr ha _).allow fun _ => isErrno_of_tooBig).bind ?_
    rintro os' ⟨hr', ha', ht⟩
    rw [flush_of_clean hr'.clean]
    rw [← encodeAll_concat] at hr'
    refine .ok ⟨h.paths, h.owner, s, _, hs, ?_, .inr ⟨app, hr', ha'⟩⟩
    exact hd.of_same ht.disk hr'.content hr'.bound

/-- Unless the error is reported, the log is as it was in this respect. -/
theorem Headed.step (h : Headed c L i) (hne : c ≠ self) {op : Op} (howner : op.IsOwners self) :
    Ends IsErrno (L.step op) fun r => r.2 = some serverIdError ∨ Headed c r.1 i := by
  cases op with
  | append ep =>
    refine (h.append ep).bind ?_
    exact fun L' h' => .ok (.inr h')
  | updateReplicantState id t' v' =>
    have hid : id = self := howner
    have hother : id ≠ L.state.self := by
      rw [hid, h.owner]
      exact hne.symm
    have hcall : L.step (.updateReplicantState id t' v') = .ok (L, some serverIdError) := by
      show L.updateReplicantState id t' v' = _
      rw [Log.updateReplicantState, ReplicantState.updateFrom, if_pos hother]
      rfl
    rw [hcall]
    exact .ok (.inl rfl)
  | pruneFront index => exact howner.elim
  | pruneBack index => exact howner.elim

theorem Headed.report (hne : c ≠ self) {ops : List Op} (howner : ∀ op ∈ ops, op.IsOwners self)
    (h : Headed c L i) {L' : Log} {errs : List (Option Code)} (hcall : L.report ops = .ok (L', errs)) :
    some serverIdError ∈ errs ∨ Headed c L' i := by
  induction ops generalizing L errs with
  | nil =>
    rw [← (Prod.mk.inj (Except.ok.inj hcall)).1]
    exact .inr h
  | cons op ops ih =>
    obtain ⟨hop, hops⟩ := List.forall_mem_cons.mp howner
    obtain ⟨⟨L₁, err⟩, hstep, hrest⟩ := Fallible.bind_eq_ok.mp hcall
    obtain ⟨⟨L₂, errs₂⟩, hreport, hpair⟩ := Fallible.bind_eq_ok.mp hrest
    obtain ⟨rfl, rfl⟩ := Prod.mk.inj (Except.ok.inj hpair)
    rcases (h.step hne hop).of_ok hstep with herr | h₁
    · exact .inl (List.mem_cons.mpr (.inl (Eq.symm herr)))
    · rcases ih hops h₁ hreport with hmem | h₂
      · exact .inl (List.mem_cons_of_mem _ hmem)
      · exact .inr h₂

/-- `recover` refuses the first frame. -/
theorem recoverFile_foreign {s : ReplicantState} {fs : List Frame} {r : Recovered}
    (hother : s.self ≠ r.state.self) (junk : Nat → Nat → UInt8) :
    recoverFile junk (encodeAll (.replicantState s :: fs)) r = (r, some (.log .logServerIdError)) := by
  have hlen : 0 < (encodeAll (.replicantState s :: fs)).length := by
    have hpos := encode_pos (.replicantState s)
    rw [encodeAll_cons, List.length_append]
    omega
  rw [recoverFile, recoverLoop, if_pos hlen, encodeAll_cons,
    readFrame_encode (fits_replicantState s)]
  simp [Frame.asRead, Recovered.take, ReplicantState.updateFrom, hother, Except.map]

/-- An error of `recover` is what `restart` reports. -/
theorem restart_refused {R : Log} {junk : Nat → Nat → UInt8} {err : Code}
    (h : (Log.removeTemp { L with self := self, state := L.state.clear self, log := [] }).recover junk =
      (R, some err)) : L.restart junk self = .ok (R, some err) := by
  simp only [Log.restart, h]
  rfl

theorem Headed.not_restarts (h : Headed c L i) (hne : c ≠ self) {hard : UInt64 × UInt64} :
    ¬L.RestartsWith self hard := by
  intro hrestarts
  obtain ⟨s, fs, hs, hd, -⟩ := h.file
  let L₀ : Log := { Log.create 0 L.logPathname L.logTempPathname L.world with
    self := self, state := (ReplicantState.create 0).clear self, log := [] }
  obtain ⟨w, hremove, -, -, hkeep⟩ := removeTemp_spec L₀ hd.wf
  have hd₁ : OnDisk w.disk L.logPathname L.logTempPathname i (encodeAll (.replicantState s :: fs)) :=
    hkeep h.paths hd
  have hcontent : (L₀.setWorld w).world.disk.content L.logPathname =
      some (encodeAll (.replicantState s :: fs)) := by
    show w.disk.content L.logPathname = _
    rw [Disk.content, hd₁.dir, ← hd₁.content]
    rfl
  have hrecover : ∃ R, L₀.removeTemp.recover (fun _ _ => 0) = (R, some serverIdError) := by
    rw [hremove, Log.recover, show (L₀.setWorld w).logPathname = L.logPathname from rfl, hcontent]
    have hother : s.self ≠ ((ReplicantState.create 0).clear self).self := hs ▸ hne
    simp only
    rw [recoverFile_foreign (by exact hother)]
    exact ⟨_, rfl⟩
  obtain ⟨R, hR⟩ := hrecover
  have hrestart : (Log.create 0 L.logPathname L.logTempPathname L.world).restart (fun _ _ => 0) self =
      .ok (R, some serverIdError) := restart_refused hR
  obtain ⟨R', hR', -⟩ := hrestarts 0 (fun _ _ => 0) (by
    intro x hx
    rw [hrestart] at hx
    cases hx)
  rw [hrestart] at hR'
  cases hR'

/-! ### Starting -/

theorem writeState_self (L : Log) (self : UInt64) :
    Log.writeState { L with self := self } = L.writeState.map fun L => { L with self := self } := by
  unfold Log.writeState
  simp only
  cases writeFrame L.os (.replicantState { L.state with pos := position L.os }) true with
  | error e => rfl
  | ok os => rfl

/-- `initialise` keeps to the id that the constructor got, except in the log object. -/
theorem initialise_self (c self t v : UInt64) :
    (Log.create c path temp world).initialise self t v =
      ((Log.create c path temp world).initialise c t v).map fun L => { L with self := self } := by
  let L₀ : Log := { Log.create c path temp world with state := (ReplicantState.create c).update t v }
  have hremove : Log.removeTemp { L₀ with self := self } = { L₀.removeTemp with self := self } := by
    unfold Log.removeTemp
    split_ifs with h₁ h₂ h₂
    · rfl
    · exact absurd h₁ h₂
    · exact absurd h₂ h₁
    · rfl
  show (Obfilebuf.open_ (Log.removeTemp { L₀ with self := self }).os
      (Log.removeTemp { L₀ with self := self }).logPathname .truncate >>= fun os =>
        Log.writeState { Log.removeTemp { L₀ with self := self } with os := os }) =
    (Obfilebuf.open_ L₀.removeTemp.os L₀.removeTemp.logPathname .truncate >>= fun os =>
        Log.writeState { L₀.removeTemp with os := os }).map fun L => { L with self := self }
  rw [hremove]
  generalize L₀.removeTemp = M
  simp only
  cases Obfilebuf.open_ M.os M.logPathname .truncate with
  | error e => rfl
  | ok os =>
    simp only [bind, Except.bind]
    exact writeState_self { M with os := os } self

theorem Headed.of_initialise (hne : path ≠ temp) (hwf : world.disk.WF)
    (h : (Log.create c path temp world).initialise self t v = .ok L) : ∃ i, Headed c L i := by
  rw [initialise_self] at h
  obtain ⟨L₁, hL₁, rfl⟩ := Fallible.map_eq_ok.mp h
  have hspec : Ends TooBig ((Log.create c path temp world).initialise c t v) _ :=
    initialise_spec (q := False) hne hwf t v
  obtain ⟨i, hinv, -, -, hph⟩ := hspec.of_ok hL₁
  obtain rfl := congrArg Site.path hinv.site
  obtain rfl := congrArg Site.temp hinv.site
  have hself : L₁.self = c := congrArg Site.self hinv.site
  refine ⟨i, hne, hinv.owner.trans hself, _, [], by simp [stateAt, ReplicantState.create], hinv.disk, ?_⟩
  rcases hinv.stream with hshut | ⟨app, hr⟩
  · exact .inl hshut
  · exact .inr ⟨app, hr, hph⟩

/-- The owner can restart the log if it has constructed the log too, and its frames have 32-bit sizes;
otherwise it cannot, whatever it has appended. -/
theorem owner_restarts (hne : path ≠ temp) (hwf : world.disk.WF) {ops : List Op}
    (howner : ∀ op ∈ ops, op.IsOwners self)
    (hcalls : ∀ x, ((Log.create c path temp world).initialise self t v >>= fun L => L.report ops) ≠
      .error (.errno x)) :
    (OwnerRestarts ((Log.create c path temp world).initialise self t v) self t v ops → c = self) ∧
    ((∀ op ∈ ops, op.Small) → c = self →
      OwnerRestarts ((Log.create c path temp world).initialise self t v) self t v ops) := by
  constructor
  · rintro ⟨L, errs, hrun, herrs, hrestarts⟩
    by_contra hother
    obtain ⟨L₀, hinit, hreport⟩ := Fallible.bind_eq_ok.mp hrun
    obtain ⟨i, h₀⟩ := Headed.of_initialise hne hwf hinit
    rcases h₀.report hother howner hreport with hmem | h
    · exact herrs hmem
    · exact h.not_restarts hother hrestarts
  · rintro hsmall rfl
    have hspec : Ends TooBig ((Log.create c path temp world).initialise c t v) _ :=
      initialise_spec (q := False) hne hwf t v
    have hrun : Ends IsErrno ((Log.create c path temp world).initialise c t v >>= fun L => L.report ops)
        fun r => Grows ⟨c, path, temp⟩ r.1 ∧ (∀ err ∈ r.2, err = none) ∧
          (r.1.state.term, r.1.state.vote) = lastUpdate (t, v) ops := by
      refine (hspec.allow fun _ => isErrno_of_tooBig).bind ?_
      rintro L₀ ⟨i, hinv, hstate, -, hph⟩
      have hgrows : Grows ⟨c, path, temp⟩ L₀ := by
        refine ⟨initialFile c t v, rfl, ⟨⟨i, hinv⟩, hph⟩, ?_⟩
        rw [hstate]
        simp [initialFile, lastState, stateAt]
      rw [← hstate]
      exact hgrows.report howner hsmall
    have hno : ∀ e, IsErrno e → ((Log.create c path temp world).initialise c t v >>=
        fun L => L.report ops) ≠ .error e := by
      rintro e ⟨x, rfl⟩
      exact hcalls x
    obtain ⟨⟨L, errs⟩, hok, hgrows, herrs, hstate⟩ := hrun.returns hno
    have hnone : some serverIdError ∉ errs := by
      intro hmem
      exact absurd (herrs _ hmem) (Option.some_ne_none _)
    refine ⟨L, errs, hok, hnone, ?_⟩
    rw [← hstate]
    exact hgrows.restarts

end

/-- Appends and updates of replicant 1. -/
def ownRun : List Op :=
  [.append ⟨-1, 1, 1, [7]⟩, .updateReplicantState 1 2 1, .append ⟨-1, 2, 2, []⟩]

theorem ownRun_restarts : OwnerRestarts started 1 1 0 ownRun := by
  have howner : ∀ op ∈ ownRun, op.IsOwners 1 := by decide
  have hsmall : ∀ op ∈ ownRun, op.Small := by decide
  have hrun : (started >>= fun L => L.report ownRun).map (fun _ => ()) = .ok () := by decide +kernel
  obtain ⟨r, hr, -⟩ := Fallible.map_eq_ok.mp hrun
  refine (owner_restarts (by decide) bareWorld_wf howner ?_).2 hsmall rfl
  intro x hx
  have hran : started >>= (fun L => L.report ownRun) = .error (.errno x) := hx
  rw [hr] at hran
  cases hran

/-- A log that was constructed for replicant 1 and initialised by replicant 2. -/
def foreignStart : Except Failure Log := (Log.create 1 "log" "tmp" bareWorld).initialise 2 1 0

theorem foreignStart_refused : ∃ L R, foreignStart = .ok L ∧
    (L.step (.updateReplicantState 2 2 2)).map (·.2) = .ok (some serverIdError) ∧
    (Log.create 2 "log" "tmp" L.world).restart (fun _ _ => 0) 2 = .ok (R, some serverIdError) ∧
    ¬OwnerRestarts foreignStart 2 1 0 [] := by
  have hrun : foreignStart.map (fun L =>
      ((L.step (.updateReplicantState 2 2 2)).map (·.2),
        ((Log.create 2 "log" "tmp" L.world).restart (fun _ _ => 0) 2).map (·.2))) =
      .ok (.ok (some serverIdError), .ok (some serverIdError)) := by decide +kernel
  obtain ⟨L, hL, h⟩ := Fallible.map_eq_ok.mp hrun
  obtain ⟨hupdate, hrestart⟩ := Prod.mk.inj h
  obtain ⟨⟨R, err⟩, hR, herr⟩ := Fallible.map_eq_ok.mp hrestart
  refine ⟨L, R, hL, hupdate, by rw [hR, show err = _ from herr], ?_⟩
  rintro ⟨L', errs, hreport, -, hfound⟩
  rw [hL] at hreport
  obtain ⟨rfl, -⟩ := Prod.mk.inj (Except.ok.inj hreport)
  obtain ⟨i, hi⟩ := Headed.of_initialise (by decide) bareWorld_wf hL
  exact hi.not_restarts (by decide) hfound

end Nodeoze.Raft
