import Nodeoze.Raft.Replicant
import Mathlib.Logic.Relation

/-!
# Elections are safe

Any number of replicants run their election timeouts and handle each other's messages, in any
order; a message that was sent can arrive any number of times, or never.  No two replicants become
leader in the same term.

The invariant speaks of all the votes that were ever cast.  A handler of one replicant adds at most
one vote to the record, its own; what it sends and whom it counts is covered by the record.

Terms are 64-bit numbers.  The argument needs that they only grow, and so a timeout in the last
term is left out.
-/

namespace Nodeoze.Raft

open Quorum

variable {Λ : Type}

/-! ### The system -/

structure System (Λ : Type) where
  /-- `m_replicant_map` -/
  node : UInt64 → Option (Replicant Λ)
  sent : Finset Message
  /-- Who has become leader so far, and in which term. -/
  elected : List (UInt64 × UInt64)

inductive Action
  | onElectionTimeout (id : UInt64)
  | sendRequestVoteMessages (id : UInt64)
  | receive (m : Message)

namespace System

/-- A replicant has gone from `r` to `r'` and sent `ms`. -/
def put (s : System Λ) (id : UInt64) (r r' : Replicant Λ) (ms : Finset Message) : System Λ where
  node := Function.update s.node id (some r')
  sent := s.sent ∪ ms
  elected :=
    if r.role ≠ .leader ∧ r'.role = .leader then (id, r'.currentTerm) :: s.elected else s.elected

def act [HardLog Λ] (s : System Λ) : Action → Except Thrown (System Λ)
  | .onElectionTimeout id =>
    match s.node id with
    | none => pure s
    | some r => do
      let r' ← r.onElectionTimeout
      pure (s.put id r r' ∅)
  | .sendRequestVoteMessages id =>
    match s.node id with
    | none => pure s
    | some r => do
      let ms ← r.sendRequestVoteMessages
      pure (s.put id r r ms)
  | .receive (.requestVote sender receiver term lastLogIndex lastLogTerm) =>
    match s.node receiver with
    | none => pure s
    | some r => do
      let (r', m) ← r.receiveRequestVoteMessage sender term lastLogIndex lastLogTerm
      pure (s.put receiver r r' {m})
  | .receive (.requestVoteReply sender receiver term granted) =>
    match s.node receiver with
    | none => pure s
    | some r => do
      let r' ← r.receiveRequestVoteReply sender term granted
      pure (s.put receiver r r' ∅)

/-- Only messages that were sent arrive. -/
def Enabled (s : System Λ) : Action → Prop
  | .receive m => m ∈ s.sent
  | _ => True

def Step [HardLog Λ] (s s' : System Λ) : Prop := ∃ a, s.Enabled a ∧ s.act a = .ok s'

/-- The term of a replicant that times out can still grow. -/
def InRange (s : System Λ) : Action → Prop
  | .onElectionTimeout id => ∀ r ∈ s.node id, r.role ≠ .leader → r.currentTerm.toNat + 1 < 2 ^ 64
  | _ => True

/-- A step that does not let a term start again from zero. -/
def SafeStep [HardLog Λ] (s s' : System Λ) : Prop := ∃ a, s.Enabled a ∧ s.InRange a ∧ s.act a = .ok s'

/-- All replicants have been initialised with the same set. -/
structure Initial (active : Finset UInt64) (s : System Λ) : Prop where
  node : ∀ id, ∀ r ∈ s.node id, id ∈ active ∧ ∃ log, r = .initialised id active log
  sent : s.sent = ∅
  elected : s.elected = []

end System

/-! ### One replicant -/

section Node

variable {active : Finset UInt64} {cast cast' : Cast UInt64 UInt64} {id : UInt64}
  {r r' : Replicant Λ} {m : Message}

/-- The replicant's state agrees with the record of votes. -/
structure Agrees (active : Finset UInt64) (cast : Cast UInt64 UInt64) (id : UInt64)
    (r : Replicant Λ) : Prop where
  self : r.selfId = id
  member : id ∈ active
  replicants : r.activeReplicants = active
  vote : cast id r.currentTerm = if r.votedFor = 0 then none else some r.votedFor
  later : ∀ t, r.currentTerm < t → cast id t = none
  granted : r.role = .candidate → ∀ v ∈ r.votesGranted, v ∈ active ∧ cast v r.currentTerm = some id

/-- The message agrees with it. -/
def Message.Agrees (active : Finset UInt64) (cast : Cast UInt64 UInt64) : Message → Prop
  | .requestVote sender .. => sender ∈ active
  | .requestVoteReply sender receiver term granted =>
    granted = true → sender ∈ active ∧ cast sender term = some receiver

theorem Message.Agrees.mono (h : m.Agrees active cast) (hext : Extends cast cast') :
    m.Agrees active cast' := by
  cases m with
  | requestVote => exact h
  | requestVoteReply sender receiver term granted =>
    intro hg
    exact ⟨(h hg).1, hext _ _ _ (h hg).2⟩

/-- What a handler does to the record: votes of its own replicant may be added. -/
structure Handles (active : Finset UInt64) (cast cast' : Cast UInt64 UInt64) (id : UInt64)
    (r r' : Replicant Λ) (ms : Finset Message) : Prop where
  ext : Extends cast cast'
  others : ∀ v, v ≠ id → cast' v = cast v
  agrees : Agrees active cast' id r'
  sends : ∀ m ∈ ms, m.Agrees active cast'
  wins : r.role ≠ .leader → r'.role = .leader → Won active cast' id r'.currentTerm

theorem Agrees.stays (h : Agrees active cast id r) : Handles active cast cast id r r ∅ :=
  ⟨.refl cast, fun _ _ => rfl, h, by simp, fun hne heq => absurd heq hne⟩

theorem Agrees.updateTerm (h : Agrees active cast id r) (t : UInt64) :
    Agrees active cast id (r.updateTerm t) := by
  rcases r.updateTerm_cases t with ⟨-, heq⟩ | ⟨hlt, heq⟩
  · rw [heq]
    exact h
  · rw [heq]
    exact {
      self := h.self
      member := h.member
      replicants := h.replicants
      vote := by
        rw [h.later t hlt]
        rfl
      later := fun t' ht' => h.later t' (UInt64.lt_trans hlt ht')
      granted := fun hrole => nomatch hrole }

/-- A vote for oneself in a new term. -/
theorem Agrees.startCandidacy (h : Agrees active cast id r) (hids : 0 ∉ active)
    (hrange : r.currentTerm.toNat + 1 < 2 ^ 64) :
    ∃ cast', Extends cast cast' ∧ (∀ v, v ≠ id → cast' v = cast v) ∧
      Agrees active cast' id r.startCandidacy := by
  have hnext : (r.currentTerm + 1).toNat = r.currentTerm.toNat + 1 := by
    rw [UInt64.toNat_add, UInt64.toNat_one, Nat.mod_eq_of_lt hrange]
  have hlt : r.currentTerm < r.currentTerm + 1 := by
    rw [UInt64.lt_iff_toNat_lt, hnext]
    omega
  have hid : id ≠ 0 := fun hzero => hids (hzero ▸ h.member)
  refine ⟨record cast id (r.currentTerm + 1) id, extends_record (h.later _ hlt) id,
    fun v hv => record_other cast _ _ hv, ?_⟩
  exact {
    self := h.self
    member := h.member
    replicants := h.replicants
    vote := by
      show record cast id (r.currentTerm + 1) id id (r.currentTerm + 1) =
        if r.selfId = 0 then none else some r.selfId
      rw [record_self, h.self, if_neg hid]
    later := by
      intro t ht
      have ht' : r.currentTerm + 1 < t := ht
      have hne : t ≠ r.currentTerm + 1 := fun heq => absurd (heq ▸ ht') (UInt64.lt_irrefl _)
      rw [record_other_term cast id hne]
      exact h.later t (UInt64.lt_trans hlt ht')
    granted := by
      intro _ v hv
      have hv' : v ∈ ({r.selfId} : Finset UInt64) := hv
      rw [Finset.mem_singleton, h.self] at hv'
      rw [hv']
      exact ⟨h.member, record_self ..⟩ }

theorem Agrees.count (h : Agrees active cast id r) {voter : UInt64} {granted : Bool}
    (hvoter : granted = true → voter ∈ active ∧ cast voter r.currentTerm = some id) :
    Agrees active cast id (r.count voter granted) := by
  unfold Replicant.count
  cases granted with
  | false => exact ⟨h.self, h.member, h.replicants, h.vote, h.later, h.granted⟩
  | true =>
    refine ⟨h.self, h.member, h.replicants, h.vote, h.later, ?_⟩
    intro hrole v hv
    rcases Finset.mem_insert.mp hv with rfl | hv
    · exact hvoter rfl
    · exact h.granted hrole v hv

theorem Handles.of_updateTerm {t : UInt64} {ms : Finset Message}
    (h : Handles active cast cast' id (r.updateTerm t) r' ms) :
    Handles active cast cast' id r r' ms := by
  refine { h with wins := ?_ }
  intro hne hleader
  refine h.wins ?_ hleader
  rcases r.updateTerm_cases t with ⟨-, heq⟩ | ⟨-, heq⟩
  · rw [heq]
    exact hne
  · rw [heq]
    exact fun hfollower => nomatch hfollower

variable [HardLog Λ]

theorem onElectionTimeout_handles (h : Agrees active cast id r) (hids : 0 ∉ active)
    (hrange : r.role ≠ .leader → r.currentTerm.toNat + 1 < 2 ^ 64)
    (hcall : r.onElectionTimeout = .ok r') : ∃ cast', Handles active cast cast' id r r' ∅ := by
  rcases Replicant.onElectionTimeout_cases hcall with ⟨-, rfl⟩ | ⟨hrole, log, -, rfl⟩
  · exact ⟨cast, h.stays⟩
  · obtain ⟨cast', hext, hothers, hagrees⟩ := h.startCandidacy hids (hrange hrole)
    refine ⟨cast', hext, hothers, ?_, by simp, fun _ hleader => nomatch hleader⟩
    exact ⟨hagrees.self, hagrees.member, hagrees.replicants, hagrees.vote, hagrees.later,
      hagrees.granted⟩

theorem sendRequestVoteMessages_handles {ms : Finset Message} (h : Agrees active cast id r)
    (hcall : r.sendRequestVoteMessages = .ok ms) : Handles active cast cast id r r ms := by
  have hstay := h.stays
  refine { hstay with sends := ?_ }
  rcases Replicant.sendRequestVoteMessages_cases hcall with rfl | ⟨back, -, -, rfl⟩
  · simp
  · intro m hm
    obtain ⟨receiver, -, rfl⟩ := Finset.mem_image.mp hm
    show r.selfId ∈ active
    rw [h.self]
    exact h.member

/-- A vote is granted once per term. -/
theorem handleRequestVoteMessage_handles (h : Agrees active cast id r) (hids : 0 ∉ active)
    {candidate term lastTerm lastIndex : UInt64} (hcandidate : candidate ∈ active)
    (hcall : r.handleRequestVoteMessage candidate term lastTerm lastIndex = .ok (r', m)) :
    ∃ cast', Handles active cast cast' id r r' {m} := by
  obtain ⟨back, -, rfl, hr'⟩ := Replicant.handleRequestVoteMessage_cases hcall
  have hnonzero : candidate ≠ 0 := fun hzero => hids (hzero ▸ hcandidate)
  by_cases hgrant : r.grants back candidate term lastTerm lastIndex = true
  · rw [if_pos hgrant] at hr'
    obtain ⟨-, hfree⟩ := Replicant.grants_iff hgrant
    -- the vote is new, or the one that was cast before
    obtain ⟨cast', hext, hothers, hvote, hlater⟩ : ∃ cast', Extends cast cast' ∧
        (∀ v, v ≠ id → cast' v = cast v) ∧ cast' id r.currentTerm = some candidate ∧
        ∀ t, r.currentTerm < t → cast' id t = none := by
      have hcast := h.vote
      rcases hfree with hzero | hsame
      · rw [if_pos hzero] at hcast
        refine ⟨record cast id r.currentTerm candidate, extends_record hcast candidate,
          fun v hv => record_other cast _ _ hv, record_self .., ?_⟩
        intro t ht
        have hne : t ≠ r.currentTerm := fun heq => absurd (heq ▸ ht) (UInt64.lt_irrefl _)
        rw [record_other_term cast candidate hne]
        exact h.later t ht
      · rw [hsame, if_neg hnonzero] at hcast
        exact ⟨cast, .refl cast, fun _ _ => rfl, hcast, h.later⟩
    subst hr'
    refine ⟨cast', hext, hothers, ?_, ?_, fun hne heq => absurd heq hne⟩
    · exact {
        self := h.self
        member := h.member
        replicants := h.replicants
        vote := by
          show cast' id r.currentTerm = if candidate = 0 then none else some candidate
          rw [hvote, if_neg hnonzero]
        later := hlater
        granted := by
          intro hrole v hv
          obtain ⟨hmem, hcast⟩ := h.granted hrole v hv
          exact ⟨hmem, hext _ _ _ hcast⟩ }
    · intro m hm
      rw [Finset.mem_singleton.mp hm]
      intro _
      rw [h.self]
      exact ⟨h.member, hvote⟩
  · rw [if_neg hgrant] at hr'
    subst hr'
    have hstay := h.stays
    refine ⟨cast, { hstay with sends := ?_ }⟩
    intro m hm
    rw [Finset.mem_singleton.mp hm]
    exact fun htrue => absurd htrue hgrant

/-- Whoever becomes leader has counted a majority. -/
theorem handleRequestVoteReply_handles (h : Agrees active cast id r) {voter term : UInt64}
    {granted : Bool} (hreply : granted = true → voter ∈ active ∧ cast voter term = some id)
    (hcall : r.handleRequestVoteReply voter term granted = .ok r') :
    Handles active cast cast id r r' ∅ := by
  rcases Replicant.handleRequestVoteReply_cases hcall with rfl | ⟨helection, hcounted⟩
  · exact h.stays
  · simp only [Replicant.electionInProgress, Bool.and_eq_true, beq_iff_eq] at helection
    obtain ⟨hrole, rfl⟩ := helection
    have hcount := h.count hreply
    have hrole' : (r.count voter granted).role = .candidate := by
      unfold Replicant.count
      split_ifs <;> exact hrole
    rcases hcounted with rfl | ⟨hquorum, hleader⟩
    · refine ⟨.refl cast, fun _ _ => rfl, hcount, by simp, ?_⟩
      intro _ hleader
      rw [hrole'] at hleader
      cases hleader
    · obtain ⟨back, -, rfl⟩ := Replicant.becomeLeader_cases hleader
      refine ⟨.refl cast, fun _ _ => rfl, ?_, by simp, ?_⟩
      · exact ⟨hcount.self, hcount.member, hcount.replicants, hcount.vote, hcount.later,
          fun hcandidate => nomatch hcandidate⟩
      · intro _ _
        simp only [Replicant.quorum, decide_eq_true_eq, hcount.replicants] at hquorum
        have hgranted := hcount.granted hrole'
        exact ⟨_, fun v hv => (hgranted v hv).1, hquorum, fun v hv => (hgranted v hv).2⟩

theorem receiveRequestVoteMessage_handles (h : Agrees active cast id r) (hids : 0 ∉ active)
    {sender term lastLogIndex lastLogTerm : UInt64} (hsender : sender ∈ active)
    (hcall : r.receiveRequestVoteMessage sender term lastLogIndex lastLogTerm = .ok (r', m)) :
    ∃ cast', Handles active cast cast' id r r' {m} := by
  obtain ⟨cast', hcast'⟩ := handleRequestVoteMessage_handles (h.updateTerm term) hids hsender hcall
  exact ⟨cast', hcast'.of_updateTerm⟩

theorem receiveRequestVoteReply_handles (h : Agrees active cast id r) {sender term : UInt64}
    {granted : Bool} (hreply : granted = true → sender ∈ active ∧ cast sender term = some id)
    (hcall : r.receiveRequestVoteReply sender term granted = .ok r') :
    Handles active cast cast id r r' ∅ := by
  apply Handles.of_updateTerm (t := term)
  have hupdate := h.updateTerm term
  unfold Replicant.receiveRequestVoteReply at hcall
  change (if (r.updateTerm term).currentTerm ≤ term then _ else _) = _ at hcall
  split_ifs at hcall
  · exact handleRequestVoteReply_handles hupdate hreply hcall
  · obtain rfl := Except.ok.inj hcall
    exact hupdate.stays

end Node

/-! ### The whole system -/

section

variable {active : Finset UInt64} {cast cast' : Cast UInt64 UInt64} {s s' : System Λ}

structure System.Agrees (active : Finset UInt64) (cast : Cast UInt64 UInt64) (s : System Λ) :
    Prop where
  node : ∀ id, ∀ r ∈ s.node id, Raft.Agrees active cast id r
  sent : ∀ m ∈ s.sent, m.Agrees active cast
  elected : ∀ l t, (l, t) ∈ s.elected → Won active cast l t

theorem System.Agrees.put (h : s.Agrees active cast) {id : UInt64} {r r' : Replicant Λ}
    {ms : Finset Message} (hr : Handles active cast cast' id r r' ms) :
    (s.put id r r' ms).Agrees active cast' where
  node := by
    intro v q hq
    have hq' : Function.update s.node id (some r') v = some q := hq
    by_cases hv : v = id
    · rw [hv, Function.update_self] at hq'
      rw [← Option.some.inj hq', hv]
      exact hr.agrees
    · rw [Function.update_of_ne hv] at hq'
      have hold := h.node v q hq'
      have hsame := hr.others v hv
      refine ⟨hold.self, hold.member, hold.replicants, ?_, ?_, ?_⟩
      · rw [hsame]
        exact hold.vote
      · rw [hsame]
        exact hold.later
      · intro hrole w hw
        obtain ⟨hmem, hcast⟩ := hold.granted hrole w hw
        exact ⟨hmem, hr.ext _ _ _ hcast⟩
  sent := by
    intro m hm
    rcases Finset.mem_union.mp hm with hm | hm
    · exact (h.sent m hm).mono hr.ext
    · exact hr.sends m hm
  elected := by
    intro l t hl
    have hl' : (l, t) ∈ if r.role ≠ .leader ∧ r'.role = .leader then
        (id, r'.currentTerm) :: s.elected else s.elected := hl
    split_ifs at hl' with hwin
    · rcases List.mem_cons.mp hl' with heq | hl'
      · obtain ⟨rfl, rfl⟩ := Prod.mk.inj heq
        exact hr.wins hwin.1 hwin.2
      · exact (h.elected l t hl').mono hr.ext
    · exact (h.elected l t hl').mono hr.ext

theorem System.Initial.agrees (h : s.Initial active) :
    s.Agrees active fun _ _ => none where
  node := by
    intro id r hr
    obtain ⟨hmem, log, rfl⟩ := h.node id r hr
    exact ⟨rfl, hmem, rfl, rfl, fun _ _ => rfl, fun hrole => nomatch hrole⟩
  sent := by simp [h.sent]
  elected := by simp [h.elected]

variable [HardLog Λ]

theorem System.Agrees.act (h : s.Agrees active cast) (hids : 0 ∉ active) {a : Action}
    (henabled : s.Enabled a) (hrange : s.InRange a) (hact : s.act a = .ok s') :
    ∃ cast', s'.Agrees active cast' := by
  have hnone : (pure s : Except Thrown (System Λ)) = .ok s' → ∃ cast', s'.Agrees active cast' := by
    intro hsame
    obtain rfl := Except.ok.inj hsame
    exact ⟨cast, h⟩
  cases a with
  | onElectionTimeout id =>
    rcases hnode : s.node id with _ | r
    · rw [System.act, hnode] at hact
      exact hnone hact
    · rw [System.act, hnode] at hact
      obtain ⟨r', hcall, hact⟩ := Fallible.bind_eq_ok.mp hact
      obtain rfl := Except.ok.inj hact
      obtain ⟨cast', hr⟩ :=
        onElectionTimeout_handles (h.node id r hnode) hids (hrange r hnode) hcall
      exact ⟨cast', h.put hr⟩
  | sendRequestVoteMessages id =>
    rcases hnode : s.node id with _ | r
    · rw [System.act, hnode] at hact
      exact hnone hact
    · rw [System.act, hnode] at hact
      obtain ⟨ms, hcall, hact⟩ := Fallible.bind_eq_ok.mp hact
      obtain rfl := Except.ok.inj hact
      exact ⟨cast, h.put (sendRequestVoteMessages_handles (h.node id r hnode) hcall)⟩
  | receive m =>
    cases m with
    | requestVote sender receiver term lastLogIndex lastLogTerm =>
      rcases hnode : s.node receiver with _ | r
      · rw [System.act, hnode] at hact
        exact hnone hact
      · rw [System.act, hnode] at hact
        obtain ⟨⟨r', m⟩, hcall, hact⟩ := Fallible.bind_eq_ok.mp hact
        obtain rfl := Except.ok.inj hact
        have hsender : sender ∈ active := h.sent _ henabled
        obtain ⟨cast', hr⟩ :=
          receiveRequestVoteMessage_handles (h.node receiver r hnode) hids hsender hcall
        exact ⟨cast', h.put hr⟩
    | requestVoteReply sender receiver term granted =>
      rcases hnode : s.node receiver with _ | r
      · rw [System.act, hnode] at hact
        exact hnone hact
      · rw [System.act, hnode] at hact
        obtain ⟨r', hcall, hact⟩ := Fallible.bind_eq_ok.mp hact
        obtain rfl := Except.ok.inj hact
        exact ⟨cast, h.put
          (receiveRequestVoteReply_handles (h.node receiver r hnode) (h.sent _ henabled) hcall)⟩

/-- In every run some record of votes explains the state of the system. -/
theorem System.Initial.reach (hinit : s.Initial active) (hids : 0 ∉ active)
    (hrun : Relation.ReflTransGen System.SafeStep s s') : ∃ cast, s'.Agrees active cast := by
  induction hrun with
  | refl => exact ⟨_, hinit.agrees⟩
  | tail _ hstep ih =>
    obtain ⟨cast, hcast⟩ := ih
    obtain ⟨a, henabled, hrange, hact⟩ := hstep
    exact hcast.act hids henabled hrange hact

/-- No two replicants become leader in the same term. -/
theorem one_leader_per_term (hids : 0 ∉ active) (hinit : s.Initial active)
    (hrun : Relation.ReflTransGen System.SafeStep s s') {a b t : UInt64}
    (ha : (a, t) ∈ s'.elected) (hb : (b, t) ∈ s'.elected) : a = b := by
  obtain ⟨cast, hcast⟩ := hinit.reach hids hrun
  exact (hcast.elected a t ha).unique (hcast.elected b t hb)

end

/-! ### Runs on given actions -/

section

variable [HardLog Λ]

instance (s : System Λ) : (a : Action) → Decidable (s.Enabled a)
  | .receive m => inferInstanceAs (Decidable (m ∈ s.sent))
  | .onElectionTimeout _ => isTrue trivial
  | .sendRequestVoteMessages _ => isTrue trivial

instance (s : System Λ) : (a : Action) → Decidable (s.InRange a)
  | .onElectionTimeout id => inferInstanceAs
      (Decidable (∀ r ∈ s.node id, r.role ≠ .leader → r.currentTerm.toNat + 1 < 2 ^ 64))
  | .receive _ => isTrue trivial
  | .sendRequestVoteMessages _ => isTrue trivial

/-- The state after the actions, if each can be taken. -/
def System.attempt : System Λ → List Action → Option (System Λ)
  | s, [] => some s
  | s, a :: as =>
    if s.Enabled a ∧ s.InRange a then
      match s.act a with
      | .ok s' => System.attempt s' as
      | .error _ => none
    else none

theorem System.attempt_reach {s s' : System Λ} {as : List Action} (h : s.attempt as = some s') :
    Relation.ReflTransGen System.SafeStep s s' := by
  induction as generalizing s with
  | nil =>
    obtain rfl := Option.some.inj h
    exact .refl
  | cons a as ih =>
    rw [System.attempt] at h
    split_ifs at h with hok
    rcases hact : s.act a with e | s₁
    · rw [hact] at h
      cases h
    · rw [hact] at h
      exact .head ⟨a, hok.1, hok.2, hact⟩ (ih h)

end

/-- For examples: a log that only has a last entry. -/
instance : HardLog StateMachineUpdate where
  back e := some e
  updateReplicantState e _ _ _ := .ok e

/-- Three replicants with the same log. -/
def trio : System StateMachineUpdate where
  node id := if id ∈ ({1, 2, 3} : Finset UInt64) then
    some (.initialised id {1, 2, 3} ⟨-1, 1, 1, []⟩) else none
  sent := ∅
  elected := []

theorem trio_initial : trio.Initial {1, 2, 3} where
  node := by
    intro id r hr
    have hr' : (if id ∈ ({1, 2, 3} : Finset UInt64) then
      some (Replicant.initialised id {1, 2, 3} ⟨-1, 1, 1, []⟩) else none) = some r := hr
    split_ifs at hr' with hid
    exact ⟨hid, _, (Option.some.inj hr').symm⟩
  sent := rfl
  elected := rfl

/-- Replicant 1 is elected with the vote of replicant 2. -/
def firstElection : List Action :=
  [.onElectionTimeout 1, .sendRequestVoteMessages 1, .receive (.requestVote 1 2 2 1 1),
    .receive (.requestVoteReply 2 1 2 true)]

theorem firstElection_unique : ∃ s, Relation.ReflTransGen System.SafeStep trio s ∧
    (1, 2) ∈ s.elected ∧ ∀ b, (b, 2) ∈ s.elected → b = 1 := by
  have hrun : (trio.attempt firstElection).map (·.elected) = some [(1, 2)] := by decide +kernel
  obtain ⟨s, hs, helected⟩ := Option.map_eq_some_iff.mp hrun
  have hmem : (1, 2) ∈ s.elected := by
    rw [helected]
    exact List.mem_singleton_self _
  refine ⟨s, System.attempt_reach hs, hmem, ?_⟩
  intro b hb
  exact one_leader_per_term (by decide) trio_initial (System.attempt_reach hs) hb hmem

/-! ### When the term starts again from zero -/

/-- A replicant that has started an election in the same term once more. -/
def Replicant.again (r : Replicant Λ) (n : UInt64) : Replicant Λ :=
  { r.startCandidacy with currentTerm := r.currentTerm + n }

def System.setNode (s : System Λ) (id : UInt64) (r : Replicant Λ) : System Λ :=
  { s with node := Function.update s.node id (some r) }

theorem timeouts (s : System StateMachineUpdate) {id : UInt64} {r : Replicant StateMachineUpdate}
    (hnode : s.node id = some r) (hrole : r.role ≠ .leader) (n : Nat) :
    Relation.ReflTransGen System.Step s (s.setNode id (r.again (.ofNat (n + 1)))) := by
  have hput : ∀ (s : System StateMachineUpdate) (q : Replicant StateMachineUpdate),
      s.node id = some q → q.role ≠ .leader →
      s.act (.onElectionTimeout id) = .ok (s.setNode id (q.again 1)) := by
    intro s q hq hqrole
    have hcall : q.onElectionTimeout = .ok (q.again 1) := by
      rw [Replicant.onElectionTimeout, if_pos hqrole]
      rfl
    rw [System.act, hq]
    simp only [hcall]
    show Except.ok (s.put id q (q.again 1) ∅) = _
    simp [System.put, System.setNode, Replicant.again, Replicant.startCandidacy]
  induction n with
  | zero => exact .single ⟨.onElectionTimeout id, trivial, hput s r hnode hrole⟩
  | succ n ih =>
    refine ih.tail ⟨.onElectionTimeout id, trivial, ?_⟩
    rw [hput (s.setNode id (r.again (.ofNat (n + 1)))) (r.again (.ofNat (n + 1)))
      (by simp [System.setNode]) (by simp [Replicant.again, Replicant.startCandidacy])]
    have hnext : r.currentTerm + UInt64.ofNat (n + 1) + 1 = r.currentTerm + UInt64.ofNat (n + 2) := by
      rw [UInt64.add_assoc, ← UInt64.ofNat_one, ← UInt64.ofNat_add]
    simp only [System.setNode, Function.update_idem, Replicant.again, Replicant.startCandidacy, hnext]

/-- Replicant 2 comes back to the term in which it has voted, and asks replicant 3. -/
def secondElection : List Action :=
  [.sendRequestVoteMessages 2, .receive (.requestVote 2 3 2 1 1),
    .receive (.requestVoteReply 3 2 2 true)]

theorem two_leaders : ∃ s, Relation.ReflTransGen System.Step trio s ∧
    (1, 2) ∈ s.elected ∧ (2, 2) ∈ s.elected := by
  have hsafe : ∀ {s s' : System StateMachineUpdate},
      Relation.ReflTransGen System.SafeStep s s' → Relation.ReflTransGen System.Step s s' := by
    intro s s'
    apply Relation.ReflTransGen.mono
    rintro s s' ⟨a, henabled, -, hact⟩
    exact ⟨a, henabled, hact⟩
  have hrun : (trio.attempt firstElection).bind (fun s => (s.node 2).bind fun r =>
      if r.role = .leader then none else
        ((s.setNode 2 (r.again 0)).attempt secondElection).map (·.elected)) =
      some [(2, 2), (1, 2)] := by decide +kernel
  obtain ⟨s₁, hs₁, h⟩ := Option.bind_eq_some_iff.mp hrun
  obtain ⟨r, hr, h⟩ := Option.bind_eq_some_iff.mp h
  split_ifs at h with hrole
  obtain ⟨s₂, hs₂, helected⟩ := Option.map_eq_some_iff.mp h
  have htimeouts := timeouts s₁ hr hrole (2 ^ 64 - 1)
  have hzero : UInt64.ofNat (2 ^ 64 - 1 + 1) = 0 := rfl
  rw [hzero] at htimeouts
  refine ⟨s₂, ?_, ?_, ?_⟩
  · exact (hsafe (System.attempt_reach hs₁)).trans
      (htimeouts.trans (hsafe (System.attempt_reach hs₂)))
  · rw [helected]
    decide
  · rw [helected]
    decide

end Nodeoze.Raft
