import Nodeoze.Raft.Durability
import Nodeoze.Raft.Replicant

/-!
# Votes and terms after a restart

Of the handlers only `on_election_timeout` tells the log about the term and the vote.  A term that
is adopted from a message, and a vote that is granted, are in memory only; a restart finds what the
last timeout has written.
-/

namespace Nodeoze.Raft

open Bstream Obfilebuf Posix

/-- What a replicant is told to do. -/
inductive Event
  | onElectionTimeout
  | receiveRequestVoteMessage (senderId term lastLogIndex lastLogTerm : UInt64)
  | receiveRequestVoteReply (senderId term : UInt64) (granted : Bool)

namespace Replicant

/-- `initialize( self, active_replicants )`, with a log that was made for this replicant. -/
def initialise (log : Log) (self : UInt64) (activeReplicants : Finset UInt64) :
    Except Failure (Replicant Log) := do
  let log ← log.initialise self 1 0
  pure (.initialised self activeReplicants log)

/-- `restart( self, active_replicants )` of a new replicant; with an error of the log it stops half
way. -/
def restart (log : Log) (junk : Nat → Nat → UInt8) (self : UInt64)
    (activeReplicants : Finset UInt64) : Except Failure (Option (Replicant Log)) := do
  let (log, err) ← log.restart junk self
  match err with
  | some _ => pure none
  | none => pure (some { Replicant.initialised self activeReplicants log with
      currentTerm := log.state.term, votedFor := log.state.vote })

section

variable {Λ : Type} [HardLog Λ]

def step (r : Replicant Λ) : Event → Except Thrown (Replicant Λ)
  | .onElectionTimeout => r.onElectionTimeout
  | .receiveRequestVoteMessage senderId term lastLogIndex lastLogTerm => do
    let (r, _) ← r.receiveRequestVoteMessage senderId term lastLogIndex lastLogTerm
    pure r
  | .receiveRequestVoteReply senderId term granted => r.receiveRequestVoteReply senderId term granted

def run (r : Replicant Λ) : List Event → Except Thrown (Replicant Λ)
  | [] => pure r
  | e :: es => do
    let r ← r.step e
    run r es

/-- A timeout that starts an election writes to the log. -/
def saves (r : Replicant Λ) : Event → Bool
  | .onElectionTimeout => r.role ≠ .leader
  | _ => false

/-- The vote that the request gets is a new one. -/
def votes (r : Replicant Λ) (senderId term lastLogIndex lastLogTerm : UInt64) : Bool :=
  match HardLog.back r.log with
  | some back =>
    r.grants back senderId term lastLogIndex lastLogTerm && r.votedFor != senderId
  | none => false

/-- The message brings a new term, or is granted a new vote. -/
def changes (r : Replicant Λ) : Event → Bool
  | .onElectionTimeout => false
  | .receiveRequestVoteMessage senderId term lastLogIndex lastLogTerm =>
    r.currentTerm < term || (r.updateTerm term).votes senderId term lastLogIndex lastLogTerm
  | .receiveRequestVoteReply _ term _ => r.currentTerm < term

/-- No message has changed the term or the vote since a timeout has written them. -/
def upToDate (r : Replicant Λ) (b : Bool) : List Event → Bool
  | [] => b
  | e :: es =>
    match r.step e with
    | .ok r' => upToDate r' (r.saves e || (b && !r.changes e)) es
    | .error _ => b

end

/-! ### One event -/

section

variable {Λ : Type} {r r' : Replicant Λ}

/-- From `r` to `r'` the term has grown, or a first vote was given in it. -/
def Moved (r r' : Replicant Λ) : Prop :=
  r.currentTerm < r'.currentTerm ∨
    (r'.currentTerm = r.currentTerm ∧ r.votedFor = 0 ∧ r'.votedFor ≠ 0)

/-- What an event does that writes nothing. -/
structure Volatile (moves : Bool) (r r' : Replicant Λ) : Prop where
  log : r'.log = r.log
  self : r'.selfId = r.selfId
  moved : moves = true → Moved r r'
  same : moves = false → (r'.currentTerm, r'.votedFor) = (r.currentTerm, r.votedFor)

theorem Volatile.of_same (hlog : r'.log = r.log) (hself : r'.selfId = r.selfId)
    (hsame : (r'.currentTerm, r'.votedFor) = (r.currentTerm, r.votedFor)) : Volatile false r r' where
  log := hlog
  self := hself
  moved := fun hm => nomatch hm
  same := fun _ => hsame

theorem updateTerm_volatile (r : Replicant Λ) (t : UInt64) :
    Volatile (r.currentTerm < t) r (r.updateTerm t) := by
  rcases r.updateTerm_cases t with ⟨hlt, h⟩ | ⟨hlt, h⟩
  · rw [h]
    exact ⟨rfl, rfl, fun hm => absurd (of_decide_eq_true hm) hlt, fun _ => rfl⟩
  · rw [h]
    refine ⟨rfl, rfl, fun _ => .inl hlt, fun hm => absurd hlt (of_decide_eq_false hm)⟩

/-- An event that goes on from the new term. -/
theorem Volatile.after_updateTerm {t : UInt64} {moves : Bool}
    (h : Volatile moves (r.updateTerm t) r') :
    Volatile (r.currentTerm < t || moves) r r' := by
  have hu := r.updateTerm_volatile t
  refine ⟨h.log.trans hu.log, h.self.trans hu.self, ?_, ?_⟩
  · intro hor
    rcases Bool.eq_false_or_eq_true (decide (r.currentTerm < t)) with hlt | hlt
    · left
      rcases r.updateTerm_cases t with ⟨hnot, -⟩ | ⟨hlt, heq⟩
      · exact absurd (of_decide_eq_true hlt) hnot
      · have hterm : (r.updateTerm t).currentTerm = t := by rw [heq]
        have hle : ¬ r'.currentTerm < t := by
          rcases Bool.eq_false_or_eq_true moves with hm | hm
          · rcases h.moved hm with hgt | ⟨hsame, -⟩
            · rw [hterm] at hgt
              exact fun hbad => absurd (UInt64.lt_trans hgt hbad) (UInt64.lt_irrefl t)
            · rw [hsame, hterm]
              exact UInt64.lt_irrefl t
          · have hsame := congrArg Prod.fst (h.same hm)
            simp only at hsame
            rw [hsame, hterm]
            exact UInt64.lt_irrefl t
        exact UInt64.lt_of_lt_of_le hlt (UInt64.not_lt.mp hle)
    · rw [hlt, Bool.false_or] at hor
      rcases r.updateTerm_cases t with ⟨-, heq⟩ | ⟨hbad, -⟩
      · have hmoved := h.moved hor
        rw [heq] at hmoved
        exact hmoved
      · exact absurd hbad (of_decide_eq_false hlt)
  · intro hor
    rw [Bool.or_eq_false_iff] at hor
    exact (h.same hor.2).trans (hu.same hor.1)

/-- Compared with the pair `p` that was written: up to date, or ahead of it. -/
def Tracks (p : UInt64 × UInt64) (b : Bool) (r : Replicant Λ) : Prop :=
  if b then (r.currentTerm, r.votedFor) = p
  else p.1 < r.currentTerm ∨ (r.currentTerm = p.1 ∧ p.2 = 0 ∧ r.votedFor ≠ 0)

theorem Tracks.iff {p : UInt64 × UInt64} {b : Bool} (h : Tracks p b r) :
    p = (r.currentTerm, r.votedFor) ↔ b = true := by
  unfold Tracks at h
  cases b with
  | true => exact ⟨fun _ => rfl, fun _ => h.symm⟩
  | false =>
    refine ⟨?_, fun hb => nomatch hb⟩
    rintro rfl
    rcases h with hlt | ⟨-, hzero, hne⟩
    · exact absurd hlt (UInt64.lt_irrefl _)
    · exact absurd hzero hne

theorem Tracks.step {p : UInt64 × UInt64} {b moves : Bool} (h : Tracks p b r)
    (hv : Volatile moves r r') : Tracks p (b && !moves) r' := by
  unfold Tracks at h ⊢
  cases moves with
  | false =>
    obtain ⟨hterm, hvote⟩ := Prod.mk.inj (hv.same rfl)
    rw [hterm, hvote, Bool.not_false, Bool.and_true]
    exact h
  | true =>
    rw [Bool.not_true, Bool.and_false]
    simp only [Bool.false_eq_true, if_false]
    cases b with
    | true =>
      simp only [if_true] at h
      subst h
      exact hv.moved rfl
    | false =>
      simp only [Bool.false_eq_true, if_false] at h
      rcases hv.moved rfl with hlt | ⟨hsame, hzero, -⟩
      · rcases h with h | ⟨heq, -⟩
        · exact .inl (UInt64.lt_trans h hlt)
        · exact .inl (heq ▸ hlt)
      · rcases h with h | ⟨-, -, hne⟩
        · exact .inl (hsame ▸ h)
        · exact absurd hzero hne

variable [HardLog Λ]

theorem handleRequestVoteMessage_volatile {m : Message}
    {candidateId candidateTerm lastTerm lastIndex : UInt64}
    (h : r.handleRequestVoteMessage candidateId candidateTerm lastTerm lastIndex = .ok (r', m)) :
    Volatile (r.votes candidateId candidateTerm lastTerm lastIndex) r r' := by
  obtain ⟨back, hback, -, hr'⟩ := handleRequestVoteMessage_cases h
  have hsome : HardLog.back r.log = some back := by
    unfold Replicant.back at hback
    split at hback
    · next e he => rw [he, Except.ok.inj hback]
    · cases hback
  have hvotes : r.votes candidateId candidateTerm lastTerm lastIndex =
      (r.grants back candidateId candidateTerm lastTerm lastIndex && r.votedFor != candidateId) := by
    rw [votes, hsome]
  rw [hvotes]
  by_cases hgrant : r.grants back candidateId candidateTerm lastTerm lastIndex = true
  · rw [if_pos hgrant] at hr'
    rw [hgrant, Bool.true_and]
    subst hr'
    refine ⟨rfl, rfl, ?_, ?_⟩
    · intro hne
      have hne' : r.votedFor ≠ candidateId := by simpa using hne
      obtain ⟨-, hfree⟩ := grants_iff hgrant
      have hzero := hfree.resolve_right hne'
      exact .inr ⟨rfl, hzero, fun hc => hne' (hzero.trans hc.symm)⟩
    · intro heq
      have heq' : r.votedFor = candidateId := by simpa using heq
      rw [heq']
  · rw [if_neg hgrant] at hr'
    have hfalse : r.grants back candidateId candidateTerm lastTerm lastIndex = false := by
      simpa using hgrant
    rw [hfalse, Bool.false_and, hr']
    exact .of_same rfl rfl rfl

theorem handleRequestVoteReply_volatile {voterId voterTerm : UInt64} {granted : Bool}
    (h : r.handleRequestVoteReply voterId voterTerm granted = .ok r') : Volatile false r r' := by
  have hcount : Volatile false r (r.count voterId granted) := by
    unfold count
    split_ifs <;> exact .of_same rfl rfl rfl
  rcases handleRequestVoteReply_cases h with rfl | ⟨-, rfl | ⟨-, hleader⟩⟩
  · exact .of_same rfl rfl rfl
  · exact hcount
  · obtain ⟨back, -, rfl⟩ := becomeLeader_cases hleader
    exact .of_same hcount.log hcount.self (hcount.same rfl)

theorem step_volatile {e : Event} (h : r.step e = .ok r') (hs : r.saves e = false) :
    Volatile (r.changes e) r r' := by
  cases e with
  | onElectionTimeout =>
    rcases onElectionTimeout_cases h with ⟨-, rfl⟩ | ⟨hrole, -⟩
    · exact .of_same rfl rfl rfl
    · exact absurd hs (by simpa [saves] using hrole)
  | receiveRequestVoteMessage sender term lastLogIndex lastLogTerm =>
    obtain ⟨⟨q, m⟩, hcall, h⟩ := Fallible.bind_eq_ok.mp h
    obtain rfl := Except.ok.inj h
    exact (handleRequestVoteMessage_volatile hcall).after_updateTerm
  | receiveRequestVoteReply sender term granted =>
    have hvolatile : Volatile false (r.updateTerm term) r' := by
      change (if (r.updateTerm term).currentTerm ≤ term then _ else _) = _ at h
      split_ifs at h
      · exact handleRequestVoteReply_volatile h
      · obtain rfl := Except.ok.inj h
        exact .of_same rfl rfl rfl
    have hall := hvolatile.after_updateTerm
    rwa [Bool.or_false] at hall

theorem step_saves {e : Event} (h : r.step e = .ok r') (hs : r.saves e = true) :
    ∃ log, HardLog.updateReplicantState r.log r.selfId (r.currentTerm + 1) r.selfId = .ok log ∧
      r'.log = log ∧ r'.selfId = r.selfId ∧
      (r'.currentTerm, r'.votedFor) = (r.currentTerm + 1, r.selfId) := by
  cases e with
  | onElectionTimeout =>
    rcases onElectionTimeout_cases h with ⟨hrole, -⟩ | ⟨-, log, hlog, rfl⟩
    · simp [saves, hrole] at hs
    · exact ⟨log, hlog, rfl, rfl, rfl⟩
  | _ => cases hs

end

end Replicant

/-! ### With the log in a file -/

/-- The log follows its file, which has never been cut, and the hard state in it is `p`. -/
def Wrote (z : Site) (p : UInt64 × UInt64) (L : Log) : Prop :=
  ∃ F, Follow True z F L ∧ F.phase = .fresh ∧ (L.state.term, L.state.vote) = p ∧
    lastState (1, 0) F.frames = p

theorem Wrote.update {z : Site} {p : UInt64 × UInt64} {L L' : Log} (h : Wrote z p L) {t v : UInt64}
    (hcall : HardLog.updateReplicantState L z.self t v = .ok L') : Wrote z (t, v) L' := by
  obtain ⟨F, hfollow, hfresh, hstate, hlast⟩ := h
  have hself : z.self = L.state.self := by
    obtain ⟨⟨i, hinv⟩, -⟩ := hfollow
    rw [hinv.owner, ← hinv.site]
    rfl
  have hspec : Ends IsErrno (L.step (.updateReplicantState z.self t v)) _ :=
    step_spec hfollow trivial fun _ => by rw [hfresh]; decide
  obtain ⟨⟨L₁, err⟩, hupdate, hcall⟩ := Fallible.bind_eq_ok.mp hcall
  obtain rfl := Except.ok.inj hcall
  obtain ⟨hfollow₁, hstate₁⟩ := hspec.of_ok hupdate
  have hhard : Op.hardState L (.updateReplicantState z.self t v) = (t, v) := if_pos hself
  have hnext : lastState (1, 0) (F.next L (.updateReplicantState z.self t v)).frames = _ :=
    lastState_next (hlast.trans hstate.symm) trivial
  rw [hhard] at hnext hstate₁
  refine ⟨_, hfollow₁, ?_, hstate₁, hnext⟩
  rw [FileSpec.next, if_pos hself]
  exact hfresh

namespace Replicant

/-- The replicant is at most ahead of what its log has written. -/
def Keeps (z : Site) (b : Bool) (r : Replicant Log) : Prop :=
  r.selfId = z.self ∧ ∃ p, Wrote z p r.log ∧ r.Tracks p b

theorem Keeps.step {z : Site} {b : Bool} {r r' : Replicant Log} (h : Keeps z b r) {e : Event}
    (hstep : r.step e = .ok r') : Keeps z (r.saves e || (b && !r.changes e)) r' := by
  obtain ⟨hself, p, hwrote, htracks⟩ := h
  rcases Bool.eq_false_or_eq_true (r.saves e) with hs | hs
  · obtain ⟨log, hlog, rfl, hself', hpair⟩ := step_saves hstep hs
    rw [hself] at hlog hpair
    rw [hs, Bool.true_or]
    exact ⟨hself'.trans hself, _, hwrote.update hlog, hpair⟩
  · have hv := step_volatile hstep hs
    rw [hs, Bool.false_or]
    refine ⟨hv.self.trans hself, p, ?_, htracks.step hv⟩
    rw [hv.log]
    exact hwrote

theorem Keeps.run {z : Site} {b : Bool} {r r' : Replicant Log} (h : Keeps z b r) {es : List Event}
    (hrun : r.run es = .ok r') : Keeps z (r.upToDate b es) r' := by
  induction es generalizing r b with
  | nil =>
    obtain rfl := Except.ok.inj hrun
    exact h
  | cons e es ih =>
    rcases hstep : r.step e with err | r₁
    · rw [Replicant.run, hstep] at hrun
      cases hrun
    · rw [Replicant.run, hstep] at hrun
      rw [upToDate, hstep]
      exact ih (h.step hstep) hrun

end Replicant

section

variable {path temp : String} {world : World String} {self : UInt64} {active : Finset UInt64}

/-- A restart after any run restores the term and the vote exactly if no message has changed them
since the last timeout. -/
theorem vote_restored_iff (hne : path ≠ temp) (hwf : world.disk.WF) {r₀ r : Replicant Log}
    (hinit : Replicant.initialise (Log.create self path temp world) self active = .ok r₀)
    {es : List Event} (hrun : r₀.run es = .ok r) (id : UInt64) (junk : Nat → Nat → UInt8)
    (hcalls : ∀ x, Replicant.restart (Log.create id path temp r.log.world) junk self active ≠
      .error (.errno x)) :
    ∃ q, Replicant.restart (Log.create id path temp r.log.world) junk self active = .ok (some q) ∧
      ((q.currentTerm, q.votedFor) = (r.currentTerm, r.votedFor) ↔
        r₀.upToDate true es = true) := by
  have hspec : Ends TooBig ((Log.create self path temp world).initialise self 1 0) _ :=
    initialise_spec (q := True) hne hwf 1 0
  -- the log is there, and the replicant starts with what is in it
  have hstart : Replicant.Keeps ⟨self, path, temp⟩ true r₀ := by
    obtain ⟨L₀, hlog, hinit⟩ := Fallible.bind_eq_ok.mp hinit
    obtain rfl := Except.ok.inj hinit
    obtain ⟨i, hinv, hstate, -, hph⟩ := hspec.of_ok hlog
    refine ⟨rfl, (1, 0), ⟨initialFile self 1 0, ⟨⟨i, hinv⟩, hph⟩, rfl, hstate, ?_⟩, rfl⟩
    simp [initialFile, lastState, stateAt]
  obtain ⟨-, p, ⟨F, hfollow, -, -, hlast⟩, htracks⟩ := hstart.run hrun
  have hrestart : ∀ x, (Log.create id path temp r.log.world).restart junk self ≠
      .error (.errno x) := by
    intro x hx
    apply hcalls x
    rw [Replicant.restart, hx]
    rfl
  have hreturns : ∀ e, IsErrno e →
      (Log.create id path temp r.log.world).restart junk self ≠ .error e := by
    rintro e ⟨x, rfl⟩
    exact hrestart x
  obtain ⟨⟨R, err⟩, hR, herr, -, hstate⟩ := (hfollow.restart id junk).returns hreturns
  obtain rfl : err = none := herr
  refine ⟨_, by rw [Replicant.restart, hR]; rfl, ?_⟩
  rw [← htracks.iff, ← hlast]
  exact ⟨fun h => hstate.symm.trans h, fun h => hstate.trans h⟩

end

/-- Replicant 1 of three. -/
def lone : Except Failure (Replicant Log) :=
  Replicant.initialise (Log.create 1 "log" "tmp" bareWorld) 1 {1, 2, 3}

/-- The vote for itself, and a refusal. -/
def refusedRun : List Event := [.onElectionTimeout, .receiveRequestVoteReply 2 2 false]

theorem refusedRun_restored : ∃ r₀ r q, lone = .ok r₀ ∧ r₀.run refusedRun = .ok r ∧
    Replicant.restart (Log.create 1 "log" "tmp" r.log.world) (fun _ _ => 0) 1 {1, 2, 3} =
      .ok (some q) ∧ (q.currentTerm, q.votedFor) = (r.currentTerm, r.votedFor) := by
  have hrun : (lone.mapError Thrown.log >>= fun r₀ => (r₀.run refusedRun).map fun r =>
      (r₀.upToDate true refusedRun, (Replicant.restart (Log.create 1 "log" "tmp" r.log.world)
        (fun _ _ => 0) 1 {1, 2, 3}).map fun _ => ())).toOption = some (true, .ok ()) := by
    decide +kernel
  rcases hlone : lone with e | r₀
  · rw [hlone] at hrun
    cases hrun
  · rw [hlone] at hrun
    change ((r₀.run refusedRun).map _).toOption = _ at hrun
    rcases hres : r₀.run refusedRun with e | r
    · rw [hres] at hrun
      cases hrun
    · rw [hres] at hrun
      obtain ⟨hupToDate, hcall⟩ := Prod.mk.inj (Option.some.inj hrun)
      obtain ⟨q₀, hq₀, -⟩ := Fallible.map_eq_ok.mp hcall
      obtain ⟨q, hq, hiff⟩ := vote_restored_iff (by decide) bareWorld_wf hlone hres 1 (fun _ _ => 0)
        (fun x hx => by rw [hq₀] at hx; cases hx)
      exact ⟨r₀, r, q, rfl, hres, hq, hiff.mpr hupToDate⟩

/-- A reply from a later term. -/
def laterRun : List Event := [.receiveRequestVoteReply 2 5 false]

theorem laterRun_forgotten : ∃ r₀ r q, lone = .ok r₀ ∧ r₀.run laterRun = .ok r ∧
    Replicant.restart (Log.create 1 "log" "tmp" r.log.world) (fun _ _ => 0) 1 {1, 2, 3} =
      .ok (some q) ∧ (r.currentTerm, r.votedFor) = (5, 0) ∧
    (q.currentTerm, q.votedFor) = (1, 0) := by
  have hrun : (lone.mapError Thrown.log >>= fun r₀ => (r₀.run laterRun).map fun r =>
      ((r.currentTerm, r.votedFor), (Replicant.restart (Log.create 1 "log" "tmp" r.log.world)
        (fun _ _ => 0) 1 {1, 2, 3}).map fun q => q.map fun q => (q.currentTerm, q.votedFor))).toOption =
      some ((5, 0), .ok (some (1, 0))) := by
    decide +kernel
  rcases hlone : lone with e | r₀
  · rw [hlone] at hrun
    cases hrun
  · rw [hlone] at hrun
    change ((r₀.run laterRun).map _).toOption = _ at hrun
    rcases hres : r₀.run laterRun with e | r
    · rw [hres] at hrun
      cases hrun
    · rw [hres] at hrun
      obtain ⟨hpair, hcall⟩ := Prod.mk.inj (Option.some.inj hrun)
      obtain ⟨q₀, hq₀, hq⟩ := Fallible.map_eq_ok.mp hcall
      obtain ⟨q, rfl, hq'⟩ := Option.map_eq_some_iff.mp hq
      exact ⟨r₀, r, q, rfl, hres, hq₀, hpair, hq'⟩

end Nodeoze.Raft
