import Nodeoze.Lib.Fallible
import Nodeoze.Lib.Quorum
import Nodeoze.Raft.Log

/-!
# The replicant

The election part of `raft::replicant`.  `schedule_request_vote_messages` is empty in the source,
as are the timers; `send_request_vote_messages` can be called at any time.  The two functions that
put a message on its way are not in the source either: here a handler returns what it sends.

The log takes part with its last entry and with the hard state it is told to keep, so that the
functions are written for any such log.
-/

namespace Nodeoze.Raft

open Bstream

/-- What the replicant uses of its log: `back()`, which throws if there is no entry, and
`update_replicant_state`. -/
class HardLog (Λ : Type) where
  back : Λ → Option StateMachineUpdate
  updateReplicantState : Λ → UInt64 → UInt64 → UInt64 → Except Failure Λ

instance : HardLog Log where
  back L := L.log.getLast?
  updateReplicantState L self currentTerm votedFor := do
    let (L, _) ← L.updateReplicantState self currentTerm votedFor
    pure L

inductive Role
  | follower
  | candidate
  | leader
  deriving DecidableEq, Repr

inductive Message
  | requestVote (sender receiver term lastLogIndex lastLogTerm : UInt64)
  | requestVoteReply (sender receiver term : UInt64) (granted : Bool)
  deriving DecidableEq, Repr

/-- The exceptions that leave a handler. -/
inductive Thrown
  | log (f : Failure)
  | logIndexOutOfRange

structure Replicant (Λ : Type) where
  selfId : UInt64
  currentTerm : UInt64
  role : Role
  votedFor : UInt64
  log : Λ
  commitIndex : UInt64
  votesResponded : Finset UInt64
  votesGranted : Finset UInt64
  nextIndex : UInt64 → Option UInt64
  matchIndex : UInt64 → Option UInt64
  activeReplicants : Finset UInt64

/-- Set the entries of an index map for all the ids. -/
def setIndices (ids : Finset UInt64) (index : UInt64) (m : UInt64 → Option UInt64) :
    UInt64 → Option UInt64 :=
  fun id => if id ∈ ids then some index else m id

namespace Replicant

variable {Λ : Type}

/-- What `initialize` sets, apart from the log. -/
def initialised (self : UInt64) (activeReplicants : Finset UInt64) (log : Λ) : Replicant Λ where
  selfId := self
  currentTerm := 1
  role := .follower
  votedFor := 0
  log := log
  commitIndex := 0
  votesResponded := ∅
  votesGranted := ∅
  nextIndex := setIndices activeReplicants 1 fun _ => none
  matchIndex := setIndices activeReplicants 0 fun _ => none
  activeReplicants := activeReplicants

def back [HardLog Λ] (r : Replicant Λ) : Except Thrown StateMachineUpdate :=
  match HardLog.back r.log with
  | some e => .ok e
  | none => .error .logIndexOutOfRange

def quorum (r : Replicant Λ) : Bool := r.activeReplicants.card < r.votesGranted.card * 2

def electionInProgress (r : Replicant Λ) (term : UInt64) : Bool :=
  r.role == .candidate && term == r.currentTerm

def updateTerm (r : Replicant Λ) (incomingTerm : UInt64) : Replicant Λ :=
  if r.currentTerm < incomingTerm then
    { r with currentTerm := incomingTerm, role := .follower, votedFor := 0 }
  else r

/-- What `on_election_timeout` does before it writes to the log. -/
def startCandidacy (r : Replicant Λ) : Replicant Λ :=
  { r with currentTerm := r.currentTerm + 1, role := .candidate, votedFor := r.selfId
           votesGranted := {r.selfId}, votesResponded := {r.selfId} }

def onElectionTimeout [HardLog Λ] (r : Replicant Λ) : Except Thrown (Replicant Λ) :=
  if r.role ≠ .leader then do
    let r := r.startCandidacy
    let log ← (HardLog.updateReplicantState r.log r.selfId r.currentTerm r.votedFor).mapError .log
    pure { r with log := log }
  else pure r

def becomeLeader [HardLog Λ] (r : Replicant Λ) : Except Thrown (Replicant Λ) := do
  let back ← r.back
  pure { r with role := .leader
                nextIndex := setIndices r.activeReplicants (back.index + 1) r.nextIndex
                matchIndex := setIndices r.activeReplicants 0 r.matchIndex }

/-- The replicants that `send_request_vote_messages` sends to. -/
def outstanding (r : Replicant Λ) : Finset UInt64 :=
  r.activeReplicants.filter fun id => id ≠ r.selfId ∧ id ∉ r.votesResponded

def sendRequestVoteMessages [HardLog Λ] (r : Replicant Λ) : Except Thrown (Finset Message) :=
  if r.electionInProgress r.currentTerm then do
    let back ← r.back
    pure (r.outstanding.image fun id =>
      .requestVote r.selfId id r.currentTerm back.index back.term)
  else pure ∅

/-- Whether `handle_request_vote_message` grants the vote, given the last entry of the log. -/
def grants (r : Replicant Λ) (back : StateMachineUpdate)
    (candidateId candidateTerm lastTerm lastIndex : UInt64) : Bool :=
  let logOk := back.term < lastTerm || (lastTerm == back.term && back.index ≤ lastIndex)
  candidateTerm == r.currentTerm && logOk && (r.votedFor == 0 || r.votedFor == candidateId)

/-- The parameters are those of the definition; the caller passes the last index as the last term
and the last term as the last index. -/
def handleRequestVoteMessage [HardLog Λ] (r : Replicant Λ) (candidateId candidateTerm lastTerm lastIndex : UInt64) :
    Except Thrown (Replicant Λ × Message) := do
  let back ← r.back
  let grant := r.grants back candidateId candidateTerm lastTerm lastIndex
  let r := if grant then { r with votedFor := candidateId } else r
  pure (r, .requestVoteReply r.selfId candidateId r.currentTerm grant)

def receiveRequestVoteMessage [HardLog Λ] (r : Replicant Λ)
    (senderId term lastLogIndex lastLogTerm : UInt64) : Except Thrown (Replicant Λ × Message) :=
  (r.updateTerm term).handleRequestVoteMessage senderId term lastLogIndex lastLogTerm

/-- The voter has answered. -/
def count (r : Replicant Λ) (voterId : UInt64) (granted : Bool) : Replicant Λ :=
  let r := { r with votesResponded := insert voterId r.votesResponded }
  if granted then { r with votesGranted := insert voterId r.votesGranted } else r

def handleRequestVoteReply [HardLog Λ] (r : Replicant Λ) (voterId voterTerm : UInt64) (granted : Bool) :
    Except Thrown (Replicant Λ) :=
  if r.electionInProgress voterTerm then
    let r := r.count voterId granted
    if r.quorum then r.becomeLeader else pure r
  else pure r

def receiveRequestVoteReply [HardLog Λ] (r : Replicant Λ) (senderId term : UInt64) (granted : Bool) :
    Except Thrown (Replicant Λ) :=
  let r := r.updateTerm term
  if r.currentTerm ≤ term then r.handleRequestVoteReply senderId term granted else pure r

/-! ### What a call can do -/

variable {r r' : Replicant Λ} {m : Message}

theorem updateTerm_cases (r : Replicant Λ) (t : UInt64) :
    (¬ r.currentTerm < t ∧ r.updateTerm t = r) ∨
    (r.currentTerm < t ∧
      r.updateTerm t = { r with currentTerm := t, role := .follower, votedFor := 0 }) := by
  unfold updateTerm
  split_ifs with hlt
  · exact .inr ⟨hlt, rfl⟩
  · exact .inl ⟨hlt, rfl⟩

theorem grants_iff {back : StateMachineUpdate} {candidateId candidateTerm lastTerm lastIndex : UInt64}
    (h : r.grants back candidateId candidateTerm lastTerm lastIndex = true) :
    candidateTerm = r.currentTerm ∧ (r.votedFor = 0 ∨ r.votedFor = candidateId) := by
  simp only [grants, Bool.and_eq_true, Bool.or_eq_true, beq_iff_eq] at h
  exact ⟨h.1.1, h.2⟩

variable [HardLog Λ]

theorem onElectionTimeout_cases (h : r.onElectionTimeout = .ok r') :
    (r.role = .leader ∧ r' = r) ∨
    (r.role ≠ .leader ∧ ∃ log,
      HardLog.updateReplicantState r.log r.selfId (r.currentTerm + 1) r.selfId = .ok log ∧
      r' = { r.startCandidacy with log := log }) := by
  unfold onElectionTimeout at h
  split_ifs at h with hrole
  · right
    refine ⟨hrole, ?_⟩
    obtain ⟨log, hlog, h⟩ := Fallible.bind_eq_ok.mp h
    exact ⟨log, Fallible.mapError_eq_ok.mp hlog, (Except.ok.inj h).symm⟩
  · left
    exact ⟨not_not.mp hrole, (Except.ok.inj h).symm⟩

theorem sendRequestVoteMessages_cases {ms : Finset Message} (h : r.sendRequestVoteMessages = .ok ms) :
    ms = ∅ ∨ ∃ back, r.electionInProgress r.currentTerm = true ∧ r.back = .ok back ∧
      ms = r.outstanding.image fun id =>
        .requestVote r.selfId id r.currentTerm back.index back.term := by
  unfold sendRequestVoteMessages at h
  split_ifs at h with helection
  · obtain ⟨back, hback, h⟩ := Fallible.bind_eq_ok.mp h
    exact .inr ⟨back, helection, hback, (Except.ok.inj h).symm⟩
  · exact .inl (Except.ok.inj h).symm

theorem handleRequestVoteMessage_cases {candidateId candidateTerm lastTerm lastIndex : UInt64}
    (h : r.handleRequestVoteMessage candidateId candidateTerm lastTerm lastIndex = .ok (r', m)) :
    ∃ back, r.back = .ok back ∧
      m = .requestVoteReply r.selfId candidateId r.currentTerm
        (r.grants back candidateId candidateTerm lastTerm lastIndex) ∧
      r' = if r.grants back candidateId candidateTerm lastTerm lastIndex then
        { r with votedFor := candidateId } else r := by
  unfold handleRequestVoteMessage at h
  obtain ⟨back, hback, h⟩ := Fallible.bind_eq_ok.mp h
  obtain ⟨hr, hm⟩ := Prod.mk.inj (Except.ok.inj h)
  refine ⟨back, hback, ?_, hr.symm⟩
  rw [← hm]
  split_ifs <;> rfl

theorem handleRequestVoteReply_cases {voterId voterTerm : UInt64} {granted : Bool}
    (h : r.handleRequestVoteReply voterId voterTerm granted = .ok r') :
    r' = r ∨ (r.electionInProgress voterTerm = true ∧
      (r' = r.count voterId granted ∨
        ((r.count voterId granted).quorum = true ∧
          (r.count voterId granted).becomeLeader = .ok r'))) := by
  unfold handleRequestVoteReply at h
  split_ifs at h with helection
  · refine .inr ⟨helection, ?_⟩
    change (if (r.count voterId granted).quorum = true then _ else _) = _ at h
    split_ifs at h with hquorum
    · exact .inr ⟨hquorum, h⟩
    · exact .inl (Except.ok.inj h).symm
  · exact .inl (Except.ok.inj h).symm

theorem becomeLeader_cases (h : r.becomeLeader = .ok r') :
    ∃ back, r.back = .ok back ∧ r' = { r with
      role := .leader
      nextIndex := setIndices r.activeReplicants (back.index + 1) r.nextIndex
      matchIndex := setIndices r.activeReplicants 0 r.matchIndex } := by
  unfold becomeLeader at h
  obtain ⟨back, hback, h⟩ := Fallible.bind_eq_ok.mp h
  exact ⟨back, hback, (Except.ok.inj h).symm⟩

end Replicant

end Nodeoze.Raft
