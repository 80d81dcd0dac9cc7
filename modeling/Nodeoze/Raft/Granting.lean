import Nodeoze.Raft.Election

/-!
# Which candidates get a vote

A voter compares the last entry of the candidate with its own, first by term and then by index.
`receive_request_vote_message` hands the two numbers on in the wrong order, so that the candidate's
last index is compared with the voter's last term, and its last term with the voter's last index.
-/

namespace Nodeoze.Raft

open Bstream

variable {Λ : Type}

/-- An entry with this term and this index is as far as `e`. -/
def AsFar (term index : UInt64) (e : StateMachineUpdate) : Prop :=
  e.term < term ∨ (e.term = term ∧ e.index ≤ index)

instance (term index : UInt64) (e : StateMachineUpdate) : Decidable (AsFar term index e) := by
  unfold AsFar; exact inferInstance

/-- The voter replies to the message that it grants its vote. -/
def Replicant.grantsVote [HardLog Λ] (v : Replicant Λ) : Message → Bool
  | .requestVote sender _ term lastLogIndex lastLogTerm =>
    match v.receiveRequestVoteMessage sender term lastLogIndex lastLogTerm with
    | .ok (_, .requestVoteReply _ _ _ granted) => granted
    | _ => false
  | .requestVoteReply .. => false

/-- The voter has no vote for this candidate: it is in a later term, or has voted for another. -/
def Replicant.Denies (v c : Replicant Λ) : Prop :=
  c.currentTerm < v.currentTerm ∨
    (c.currentTerm = v.currentTerm ∧ v.votedFor ≠ 0 ∧ v.votedFor ≠ c.selfId)

instance (v c : Replicant Λ) : Decidable (v.Denies c) := by
  unfold Replicant.Denies; exact inferInstance

theorem updateTerm_denies (v c : Replicant Λ) :
    (c.currentTerm = (v.updateTerm c.currentTerm).currentTerm ∧
      ((v.updateTerm c.currentTerm).votedFor = 0 ∨ (v.updateTerm c.currentTerm).votedFor = c.selfId)) ↔
    ¬v.Denies c := by
  unfold Replicant.Denies
  rcases v.updateTerm_cases c.currentTerm with ⟨hle, hv⟩ | ⟨hlt, hv⟩
  · rw [hv]
    have hcases : c.currentTerm = v.currentTerm ∨ c.currentTerm < v.currentTerm := by
      rw [UInt64.lt_iff_toNat_lt] at hle ⊢
      rw [← UInt64.toNat_inj]
      omega
    rcases hcases with heq | hlater
    · have hirrefl : ¬v.currentTerm < v.currentTerm := UInt64.lt_irrefl _
      rw [heq]
      tauto
    · have hne : c.currentTerm ≠ v.currentTerm := UInt64.ne_of_lt hlater
      tauto
  · rw [hv]
    have hne : c.currentTerm ≠ v.currentTerm := (UInt64.ne_of_lt hlt).symm
    have hasymm : ¬c.currentTerm < v.currentTerm := UInt64.lt_asymm hlt
    simp [hne, hasymm]

variable [HardLog Λ] {c v : Replicant Λ} {m : Message} {ms : Finset Message}
  {last back : StateMachineUpdate}

/-- A message of the candidate carries its term and its last entry. -/
theorem mem_sendRequestVoteMessages (h : c.sendRequestVoteMessages = .ok ms) (hm : m ∈ ms)
    (hlast : HardLog.back c.log = some last) :
    ∃ id, m = .requestVote c.selfId id c.currentTerm last.index last.term := by
  rcases Replicant.sendRequestVoteMessages_cases h with rfl | ⟨e, -, he, rfl⟩
  · simp at hm
  · obtain ⟨id, -, rfl⟩ := Finset.mem_image.mp hm
    rw [Replicant.back, hlast] at he
    rw [Except.ok.inj he]
    exact ⟨id, rfl⟩

/-- What the voter grants, with the last index in place of the last term. -/
theorem grantsVote_iff (h : c.sendRequestVoteMessages = .ok ms) (hm : m ∈ ms)
    (hlast : HardLog.back c.log = some last) (hback : HardLog.back v.log = some back) :
    v.grantsVote m = true ↔ ¬v.Denies c ∧ AsFar last.index last.term back := by
  obtain ⟨id, rfl⟩ := mem_sendRequestVoteMessages h hm hlast
  have hlog : (v.updateTerm c.currentTerm).log = v.log := by
    rcases v.updateTerm_cases c.currentTerm with ⟨-, hv⟩ | ⟨-, hv⟩ <;> rw [hv]
  have hbacked : (v.updateTerm c.currentTerm).back = .ok back := by
    rw [Replicant.back, hlog, hback]
  have hgrant : v.grantsVote (.requestVote c.selfId id c.currentTerm last.index last.term)
      = (v.updateTerm c.currentTerm).grants back c.selfId c.currentTerm last.index last.term := by
    rw [Replicant.grantsVote, Replicant.receiveRequestVoteMessage, Replicant.handleRequestVoteMessage, hbacked]
    rfl
  rw [hgrant, ← updateTerm_denies, AsFar]
  simp only [Replicant.grants, Bool.and_eq_true, Bool.or_eq_true, beq_iff_eq, decide_eq_true_eq,
    eq_comm (a := last.index)]
  tauto

/-- The vote goes to a candidate that is as far as the voter if the voter has no vote for it, or it is as
far, or it is not with its last index and its last term exchanged. -/
theorem granted_asFar_iff (h : c.sendRequestVoteMessages = .ok ms) (hm : m ∈ ms)
    (hlast : HardLog.back c.log = some last) (hback : HardLog.back v.log = some back) :
    (v.grantsVote m = true → AsFar last.term last.index back) ↔
      v.Denies c ∨ AsFar last.term last.index back ∨ ¬AsFar last.index last.term back := by
  rw [grantsVote_iff h hm hlast hback]
  tauto

/-- Replicant 1 in an election, with a last entry of a term and an index. -/
def candidateWith (term index : UInt64) : Replicant StateMachineUpdate :=
  (Replicant.initialised 1 {1, 2} ⟨-1, term, index, []⟩).startCandidacy

/-- Replicant 2 before it has voted. -/
def voterWith (term index : UInt64) : Replicant StateMachineUpdate :=
  .initialised 2 {1, 2} ⟨-1, term, index, []⟩

/-- The message of `candidateWith`. -/
def requestWith (term index : UInt64) : Message := .requestVote 1 2 2 index term

theorem requestWith_sent (term index : UInt64) :
    ∃ ms, (candidateWith term index).sendRequestVoteMessages = .ok ms ∧ requestWith term index ∈ ms := by
  refine ⟨_, rfl, ?_⟩
  have hother : (2 : UInt64) ∈ (candidateWith term index).outstanding := by
    simp [Replicant.outstanding, candidateWith, Replicant.startCandidacy, Replicant.initialised]
  exact Finset.mem_image.mpr ⟨2, hother, rfl⟩

theorem sameTerm_granted :
    (voterWith 1 4).grantsVote (requestWith 1 5) = true ∧ AsFar 1 5 ⟨-1, 1, 4, []⟩ := by
  obtain ⟨ms, hms, hmem⟩ := requestWith_sent 1 5
  have hlast : HardLog.back (candidateWith 1 5).log = some ⟨-1, 1, 5, []⟩ := rfl
  have hback : HardLog.back (voterWith 1 4).log = some ⟨-1, 1, 4, []⟩ := rfl
  have hgrants : (voterWith 1 4).grantsVote (requestWith 1 5) = true := by decide +kernel
  exact ⟨hgrants, (granted_asFar_iff hms hmem hlast hback).mpr (by decide) hgrants⟩

/-- Of two logs the one with the older term wins, since it is longer than the term of the other. -/
theorem olderTerm_granted : (∃ ms, (candidateWith 1 5).sendRequestVoteMessages = .ok ms ∧
      requestWith 1 5 ∈ ms) ∧
    (voterWith 2 3).grantsVote (requestWith 1 5) = true ∧ ¬AsFar 1 5 ⟨-1, 2, 3, []⟩ :=
  ⟨requestWith_sent 1 5, by decide +kernel, by decide⟩

end Nodeoze.Raft
