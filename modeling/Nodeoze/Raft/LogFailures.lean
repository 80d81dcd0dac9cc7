import Nodeoze.Lib.Partway
import Nodeoze.Raft.Indexing

/-!
# Operations of the log that fail

The functions of the log change the updates in memory first and call the file stream afterwards.
Here the stream is any object whose calls can fail, with whatever it has done until then, so that
every outcome of the calls is covered; a call that fails ends the function, and leaves in memory what
the function has done.
-/

namespace Nodeoze.Raft

open Partway Reader Bstream Posix

/-- The stream `m_os` and the file system: calls on a state `σ` that can fail with an error `ε`. -/
structure Files (ε σ : Type) where
  position : σ → Int64
  isOpen : σ → Bool
  put : Chunk → EStateM ε σ Unit
  flush : EStateM ε σ Unit
  seek : Int64 → EStateM ε σ Unit
  truncate : EStateM ε σ Unit
  openFile : String → OpenMode → EStateM ε σ Unit
  close : EStateM ε σ Unit
  rename : String → String → EStateM ε σ Unit

/-- The log object over such a stream. -/
structure Held (σ : Type) where
  state : ReplicantState
  logPathname : String
  logTempPathname : String
  files : σ
  log : List StateMachineUpdate

/-- What a function reports: a code of its own or the error of a call; `undefined` is what comes of
pruning an empty log, which an assert excludes. -/
inductive Report (ε : Type)
  | code (c : Code)
  | io (e : ε)
  | undefined
  deriving DecidableEq

namespace Files

variable {ε σ : Type} (F : Files ε σ)

/-! ### The functions of the log -/

/-- A call on the stream. -/
def onFiles {α : Type} (m : EStateM ε σ α) : EStateM (Report ε) (Held σ) α :=
  onPart Held.files (fun files s => { s with files := files }) .io m

def putAll : List Chunk → EStateM ε σ Unit
  | [] => pure ()
  | t :: ts => do
    F.put t
    putAll ts

/-- `write_frame`, after it has set the position of the frame. -/
def writeFrame (f : Frame) (flush : Bool) : EStateM ε σ Unit := do
  F.putAll f.filed
  if flush then F.flush else pure ()

/-- `write_frame( m_state )` -/
def writeState : EStateM (Report ε) (Held σ) Unit := do
  let s ← get
  let state := { s.state with pos := F.position s.files }
  set { s with state := state }
  onFiles (F.writeFrame (.replicantState state) true)

def append (ep : StateMachineUpdate) : EStateM (Report ε) (Held σ) Unit := do
  let s ← get
  let ep := { ep with pos := F.position s.files }
  set { s with log := s.log ++ [ep] }
  onFiles (F.writeFrame (.stateMachineUpdate ep) true)
  onFiles F.flush

def updateReplicantState (self currentTerm votedFor : UInt64) : EStateM (Report ε) (Held σ) Unit := do
  let s ← get
  match s.state.updateFrom ⟨-1, false, self, currentTerm, votedFor⟩ with
  | .error e => throw (.code (.fault (.log e)))
  | .ok state => do
    set { s with state := state }
    if state.dirty then do
      F.writeState
      modify fun s => { s with state := s.state.clean }
    else pure ()

/-- `truncate( pos )` -/
def truncateAt (pos : Int64) : EStateM ε σ Unit := do
  F.seek pos
  F.truncate

/-- The part of `prune_back` for an index in front of the last one. -/
def cutBack (index : UInt64) (back : StateMachineUpdate) : EStateM (Report ε) (Held σ) Unit := do
  let s ← get
  let (rest, truncateAt) := Log.popBack index back.pos s.log.reverse
  set { s with log := rest.reverse }
  match rest.head? with
  | none => throw (.code .stateNotRecoverable)
  | some e =>
    if e.index ≠ index then throw (.code .stateNotRecoverable)
    else onFiles (F.truncateAt truncateAt)

def pruneBack (index : UInt64) : EStateM (Report ε) (Held σ) Unit := do
  let s ← get
  match s.log.head?, s.log.getLast? with
  | some front, some back =>
    if index < front.index ∨ back.index < index then throw (.code .invalidArgument)
    else if index < back.index then F.cutBack index back
    else pure ()
  | _, _ => throw .undefined

/-- The loop of `prune_front` that copies the updates; `done` are those it has written. -/
def writeEntries (done : List StateMachineUpdate) :
    List StateMachineUpdate → EStateM (Report ε) (Held σ) Unit
  | [] => pure ()
  | e :: es => do
    let s ← get
    let e := { e with pos := F.position s.files }
    set { s with log := done ++ e :: es }
    onFiles (F.writeFrame (.stateMachineUpdate e) false)
    writeEntries (done ++ [e]) es

/-- The part of `prune_front` that writes the file anew. -/
def rewrite : EStateM (Report ε) (Held σ) Unit := do
  onFiles F.close
  let s ← get
  onFiles (F.openFile s.logTempPathname .truncate)
  F.writeEntries [] s.log
  F.writeState
  onFiles F.close
  onFiles (F.rename s.logTempPathname s.logPathname)
  onFiles (F.openFile s.logPathname .append)

/-- The part of `prune_front` for an index behind the first one. -/
def cutFront (index : UInt64) : EStateM (Report ε) (Held σ) Unit := do
  let s ← get
  let rest := s.log.dropWhile fun e => e.index < index
  set { s with log := rest }
  match rest.head? with
  | none => throw (.code .stateNotRecoverable)
  | some e =>
    if e.index ≠ index then throw (.code .stateNotRecoverable)
    else F.rewrite

/-- `prune_front` up to its last statement. -/
def tryPruneFront (index : UInt64) : EStateM (Report ε) (Held σ) Unit := do
  let s ← get
  match s.log.head?, s.log.getLast? with
  | some front, some back =>
    if index < front.index ∨ back.index < index then throw (.code .invalidArgument)
    else if front.index < index then F.cutFront index
    else pure ()
  | _, _ => throw .undefined

/-- What `prune_front` does when it reports an error; that of the `close` is discarded. -/
def closeOnError (s : Held σ) : Held σ :=
  if F.isOpen s.files then { s with files := left (F.close.run s.files) } else s

def pruneFront (index : UInt64) : EStateM (Report ε) (Held σ) Unit :=
  onError (F.tryPruneFront index) F.closeOnError

def step : Op → EStateM (Report ε) (Held σ) Unit
  | .append ep => F.append ep
  | .updateReplicantState self currentTerm votedFor => F.updateReplicantState self currentTerm votedFor
  | .pruneFront index => F.pruneFront index
  | .pruneBack index => F.pruneBack index

/-! ### The calls that they make -/

/-- The calls of `append`. -/
def appendCalls (ep : StateMachineUpdate) : EStateM ε σ Unit := do
  let files ← get
  F.writeFrame (.stateMachineUpdate { ep with pos := F.position files }) true
  F.flush

def stateCalls (state : ReplicantState) : EStateM ε σ Unit := do
  let files ← get
  F.writeFrame (.replicantState { state with pos := F.position files }) true

def copyCalls : List StateMachineUpdate → EStateM ε σ Unit
  | [] => pure ()
  | e :: es => do
    let files ← get
    F.writeFrame (.stateMachineUpdate { e with pos := F.position files }) false
    copyCalls es

/-- The calls that write the file anew, with these updates and this state. -/
def rewriteCalls (path temp : String) (es : List StateMachineUpdate) (state : ReplicantState) :
    EStateM ε σ Unit := do
  F.close
  F.openFile temp .truncate
  F.copyCalls es
  F.stateCalls state
  F.close
  F.rename temp path
  F.openFile path .append

section

variable {F} {s : Held σ} {R E : Held σ → Prop}

theorem carries_onFiles {α : Type} {m : EStateM ε σ α} (hR : ∀ files, R { s with files := files })
    (hE : ∀ files, E { s with files := files }) :
    Carries Held.files Report.io R E ((onFiles m).run s) (m.run s.files) :=
  .onPart (fun _ _ => rfl) hR hE

/-- After a call on the stream nothing else has changed. -/
theorem carries_call {α : Type} {m : EStateM ε σ α} (hE : ∀ files, E { s with files := files }) :
    Carries Held.files Report.io (fun s' => ∃ files, s' = { s with files := files }) E
      ((onFiles m).run s) (m.run s.files) :=
  carries_onFiles (fun files => ⟨files, rfl⟩) hE

/-- `append` adds the update whatever the calls do. -/
theorem carries_append (ep : StateMachineUpdate) :
    Carries Held.files Report.io (fun s' => s'.log.length = s.log.length + 1)
      (fun s' => s'.log.length = s.log.length + 1) ((F.append ep).run s) ((F.appendCalls ep).run s.files) := by
  let e : StateMachineUpdate := { ep with pos := F.position s.files }
  have hlen : (s.log ++ [e]).length = s.log.length + 1 := by simp
  rw [append, appendCalls, run_get_bind, run_get_bind, run_set_bind]
  refine (carries_call fun _ => hlen).bind ?_
  rintro _ _ ⟨files, rfl⟩
  exact carries_onFiles (fun _ => hlen) fun _ => hlen

/-- The state, the paths and the number of updates are the same. -/
def Like (s s' : Held σ) : Prop :=
  s'.state = s.state ∧ s'.logPathname = s.logPathname ∧ s'.logTempPathname = s.logTempPathname ∧
    s'.log.length = s.log.length

/-- Writing the updates changes none but their places, whatever the calls do. -/
theorem carries_writeEntries (es : List StateMachineUpdate) :
    ∀ (done : List StateMachineUpdate) (s : Held σ), s.log.length = done.length + es.length →
      Carries Held.files Report.io (Like s) (fun s' => s'.log.length = s.log.length)
        ((F.writeEntries done es).run s) ((F.copyCalls es).run s.files) := by
  induction es with
  | nil =>
    intro done s _
    exact .ok ⟨rfl, rfl, rfl, rfl⟩
  | cons e es ih =>
    intro done s hlen
    let e' : StateMachineUpdate := { e with pos := F.position s.files }
    rw [List.length_cons] at hlen
    have hlen' : (done ++ e' :: es).length = s.log.length := by
      rw [List.length_append, List.length_cons, hlen]
    rw [writeEntries, copyCalls, run_get_bind, run_get_bind, run_set_bind]
    refine (carries_call fun _ => hlen').bind ?_
    rintro _ _ ⟨files, rfl⟩
    have hrest := ih (done ++ [e']) { s with log := done ++ e' :: es, files := files } (by
      simp only [List.length_append, List.length_cons, List.length_nil]
      omega)
    unfold Like at hrest ⊢
    rw [show (done ++ e' :: es).length = s.log.length from hlen'] at hrest
    exact hrest

theorem carries_writeState :
    Carries Held.files Report.io (fun s' => ∃ state files, s' = { s with state := state, files := files })
      (fun s' => s'.log = s.log) (F.writeState.run s) ((F.stateCalls s.state).run s.files) := by
  let state : ReplicantState := { s.state with pos := F.position s.files }
  rw [writeState, stateCalls, run_get_bind, run_get_bind, run_set_bind]
  exact carries_onFiles (fun files => ⟨state, files, rfl⟩) fun _ => rfl

/-- `rewrite` loses no update, whatever the calls do. -/
theorem carries_rewrite :
    Carries Held.files Report.io (fun s' => s'.log.length = s.log.length)
      (fun s' => s'.log.length = s.log.length) (F.rewrite.run s)
      ((F.rewriteCalls s.logPathname s.logTempPathname s.log s.state).run s.files) := by
  unfold rewrite rewriteCalls
  refine (carries_call fun _ => rfl).bind ?_
  rintro _ _ ⟨files₁, rfl⟩
  rw [run_get_bind]
  refine (carries_call fun _ => rfl).bind ?_
  rintro _ _ ⟨files₂, rfl⟩
  refine (carries_writeEntries s.log [] { s with files := files₂ } (Nat.zero_add _).symm).bind ?_
  rintro _ s₃ ⟨hstate, hpath, htemp, hlen⟩
  have hlen₃ : s₃.log.length = s.log.length := hlen
  have hstate₃ : s₃.state = s.state := hstate
  rw [← hlen₃, ← hstate₃]
  refine (carries_writeState.imp (fun _ h => h) fun _ h => congrArg List.length h).bind ?_
  rintro _ _ ⟨state, files₄, rfl⟩
  refine (carries_call fun _ => rfl).bind ?_
  rintro _ _ ⟨files₅, rfl⟩
  refine (carries_call fun _ => rfl).bind ?_
  rintro _ _ ⟨files₆, rfl⟩
  exact carries_onFiles (fun _ => rfl) fun _ => rfl

end

end Files

/-! ### When a failed operation leaves the updates as they were -/

/-- `prune_back` and `prune_front` are not for an empty log. -/
def Op.Allowed (es : List StateMachineUpdate) : Op → Prop
  | .pruneFront _ => es ≠ []
  | .pruneBack _ => es ≠ []
  | _ => True

/-- The operation adds an update, or removes one since its index is in range and there is one to remove. -/
def Op.Changes (es : List StateMachineUpdate) : Op → Prop
  | .append _ => True
  | .updateReplicantState .. => False
  | .pruneFront index => ∃ front ∈ es.head?, ∃ back ∈ es.getLast?, front.index < index ∧ index ≤ back.index
  | .pruneBack index => ∃ front ∈ es.head?, ∃ back ∈ es.getLast?, front.index ≤ index ∧ index < back.index

/-- Where `prune_back( index )` cuts the file, if it comes to the index. -/
def cutPlace (es : List StateMachineUpdate) (index : UInt64) : Option Int64 :=
  match es.getLast? with
  | some back =>
    let (rest, truncateAt) := Log.popBack index back.pos es.reverse
    if rest.head?.map (·.index) = some index then some truncateAt else none
  | none => none

namespace Files

variable {ε σ : Type} {F : Files ε σ} {s : Held σ}

/-- The operation comes to the index it is called with, and none of its calls fails. -/
def Completes (F : Files ε σ) (s : Held σ) : Op → Prop
  | .append ep => Returns (F.appendCalls ep) s.files
  | .updateReplicantState .. => True
  | .pruneFront index => (keptFrom index s.log).head?.map (·.index) = some index ∧
      Returns (F.rewriteCalls s.logPathname s.logTempPathname (keptFrom index s.log) s.state) s.files
  | .pruneBack index => ∃ pos, cutPlace s.log index = some pos ∧ Returns (F.truncateAt pos) s.files

/-- Updates come off the log whatever the calls do. -/
theorem cutBack_changes {index : UInt64} {back : StateMachineUpdate} (hback : s.log.getLast? = some back)
    (hlt : index < back.index) :
    (left ((F.cutBack index back).run s)).log.length < s.log.length ∧
      (error? ((F.cutBack index back).run s) = none ↔ F.Completes s (.pruneBack index)) := by
  obtain ⟨ks, rs, hes, hpop, -, hks⟩ := popBack_split index s.log back.pos
  have hshort : ks.length < s.log.length := by
    obtain _ | ⟨r, rs⟩ := rs
    · rw [hes, List.append_nil] at hback
      exact absurd hlt (hks back hback)
    · rw [hes, List.length_append, List.length_cons]
      omega
  rw [cutBack, run_get_bind, hpop, run_set_bind, Completes]
  simp only [cutPlace, hback, hpop, List.head?_reverse, List.reverse_reverse]
  rcases hlast : ks.getLast? with _ | k
  · refine ⟨hshort, ?_⟩
    simp [EStateM.run_throw, error?]
  · simp only [Option.map_some, Option.some.injEq]
    by_cases hk : k.index = index
    · rw [if_neg (not_not.mpr hk)]
      simp only [if_pos hk, Option.some.injEq, exists_eq_left']
      have hcalls : Carries Held.files Report.io (fun s' => s'.log.length < s.log.length)
          (fun s' => s'.log.length < s.log.length)
          ((onFiles (F.truncateAt ((rs.head?.map StateMachineUpdate.pos).getD back.pos))).run { s with log := ks })
          ((F.truncateAt ((rs.head?.map StateMachineUpdate.pos).getD back.pos)).run s.files) :=
        carries_onFiles (fun _ => hshort) fun _ => hshort
      exact ⟨hcalls.left, hcalls.returns⟩
    · rw [if_pos hk]
      refine ⟨hshort, ?_⟩
      simp [EStateM.run_throw, error?, hk]

theorem run_pruneBack {index : UInt64} {front back : StateMachineUpdate}
    (hfront : s.log.head? = some front) (hback : s.log.getLast? = some back) :
    (F.pruneBack index).run s =
      if index < front.index ∨ back.index < index then .error (.code .invalidArgument) s
      else if index < back.index then (F.cutBack index back).run s
      else .ok ⟨⟩ s := by
  rw [pruneBack, run_get_bind]
  simp only [hfront, hback]
  split_ifs <;> rfl

theorem run_tryPruneFront (index : UInt64) {front back : StateMachineUpdate}
    (hfront : s.log.head? = some front) (hback : s.log.getLast? = some back) :
    (F.tryPruneFront index).run s =
      if index < front.index ∨ back.index < index then .error (.code .invalidArgument) s
      else if front.index < index then (F.cutFront index).run s
      else .ok ⟨⟩ s := by
  rw [tryPruneFront, run_get_bind]
  simp only [hfront, hback]
  split_ifs <;> rfl

theorem cutFront_changes {index : UInt64} {front : StateMachineUpdate}
    (hfront : s.log.head? = some front) (hlt : front.index < index) :
    (left ((F.cutFront index).run s)).log.length < s.log.length ∧
      (error? ((F.cutFront index).run s) = none ↔ F.Completes s (.pruneFront index)) := by
  have hshort : (keptFrom index s.log).length < s.log.length := by
    obtain ⟨es, hes⟩ := List.head?_eq_some_iff.mp hfront
    have hle := (List.dropWhile_sublist (l := es) fun e => decide (e.index < index)).length_le
    rw [keptFrom, hes, List.dropWhile_cons_of_pos (by simpa using hlt), List.length_cons]
    omega
  rw [cutFront, run_get_bind, run_set_bind, Completes]
  rw [show (s.log.dropWhile fun e => decide (e.index < index)) = keptFrom index s.log from rfl]
  rcases hhead : (keptFrom index s.log).head? with _ | e
  · refine ⟨hshort, ?_⟩
    simp [EStateM.run_throw, error?]
  · simp only [Option.map_some, Option.some.injEq]
    by_cases he : e.index = index
    · rw [if_neg (not_not.mpr he)]
      have hcalls := carries_rewrite (F := F) (s := { s with log := keptFrom index s.log })
      refine ⟨?_, ?_⟩
      · rw [hcalls.left]
        exact hshort
      · rw [hcalls.returns, Returns]
        simp [he]
    · rw [if_pos he]
      refine ⟨hshort, ?_⟩
      simp [EStateM.run_throw, error?, he]

theorem closeOnError_log (s : Held σ) : (F.closeOnError s).log = s.log := by
  unfold closeOnError
  split_ifs <;> rfl

theorem updateReplicantState_log (self t v : UInt64) :
    (left ((F.updateReplicantState self t v).run s)).log = s.log := by
  rw [updateReplicantState, run_get_bind]
  rcases hstate : s.state.updateFrom ⟨-1, false, self, t, v⟩ with e | state
  · rfl
  · simp only
    rw [run_set_bind]
    split_ifs
    · have hcalls : Carries Held.files Report.io (fun s' => s'.log = s.log) (fun s' => s'.log = s.log)
          (F.writeState.run { s with state := state }) ((F.stateCalls state).run s.files) := by
        refine carries_writeState.imp ?_ fun _ h => h
        rintro _ ⟨state, files, rfl⟩
        rfl
      have hlog := hcalls.left
      rw [EStateM.run_bind]
      rcases hwrite : F.writeState.run { s with state := state } with ⟨_, s'⟩ | ⟨e, s'⟩
      · rw [hwrite] at hlog
        exact hlog
      · rw [hwrite] at hlog
        exact hlog
    · rfl

/-- An operation that has nothing to add or remove leaves the updates as they were. -/
theorem step_unchanged {op : Op} (hallowed : op.Allowed s.log) (hop : ¬op.Changes s.log) :
    (left ((F.step op).run s)).log = s.log := by
  cases op with
  | append ep => exact absurd trivial hop
  | updateReplicantState self t v => exact updateReplicantState_log self t v
  | pruneFront index =>
    obtain ⟨front, back, hfront, hback⟩ := exists_ends hallowed
    have hout : ¬(front.index < index ∧ index ≤ back.index) :=
      fun h => hop ⟨front, hfront, back, hback, h⟩
    have hlog := left_onError (F.tryPruneFront index) (g := Held.log) (closeOnError_log (F := F)) s
    rw [step, pruneFront, hlog, run_tryPruneFront index hfront hback]
    split_ifs with hrange hlo
    · rfl
    · exact absurd ⟨hlo, UInt64.not_lt.mp fun h => hrange (.inr h)⟩ hout
    · rfl
  | pruneBack index =>
    obtain ⟨front, back, hfront, hback⟩ := exists_ends hallowed
    have hout : ¬(front.index ≤ index ∧ index < back.index) :=
      fun h => hop ⟨front, hfront, back, hback, h⟩
    rw [step, run_pruneBack hfront hback]
    split_ifs with hrange hhi
    · rfl
    · exact absurd ⟨UInt64.not_lt.mp fun h => hrange (.inl h), hhi⟩ hout
    · rfl

/-- An operation that adds or removes updates does so whether its calls fail or not. -/
theorem step_changes {op : Op} (hop : op.Changes s.log) :
    (left ((F.step op).run s)).log.length ≠ s.log.length ∧
      (error? ((F.step op).run s) = none ↔ F.Completes s op) := by
  cases op with
  | append ep =>
    have hcalls := carries_append (F := F) (s := s) ep
    refine ⟨?_, hcalls.returns⟩
    have hlen : (left ((F.append ep).run s)).log.length = s.log.length + 1 := hcalls.left
    rw [step, hlen]
    omega
  | updateReplicantState self t v => exact hop.elim
  | pruneFront index =>
    obtain ⟨front, hfront, back, hback, hlo, hhi⟩ := hop
    have hin : ¬(index < front.index ∨ back.index < index) := by
      rintro (h | h)
      · exact absurd (UInt64.lt_trans hlo h) (UInt64.lt_irrefl _)
      · exact absurd hhi (UInt64.not_le.mpr h)
    obtain ⟨hshort, hreturns⟩ := cutFront_changes (F := F) hfront hlo
    have hlog := left_onError (F.tryPruneFront index) (g := Held.log) (closeOnError_log (F := F)) s
    have herror := error?_onError (F.tryPruneFront index) F.closeOnError s
    rw [step, pruneFront, hlog, herror, run_tryPruneFront index hfront hback, if_neg hin, if_pos hlo]
    exact ⟨hshort.ne, hreturns⟩
  | pruneBack index =>
    obtain ⟨front, hfront, back, hback, hlo, hhi⟩ := hop
    have hin : ¬(index < front.index ∨ back.index < index) := by
      rintro (h | h)
      · exact absurd hlo (UInt64.not_le.mpr h)
      · exact absurd (UInt64.lt_trans hhi h) (UInt64.lt_irrefl _)
    obtain ⟨hshort, hreturns⟩ := cutBack_changes (F := F) hback hhi
    rw [step, run_pruneBack hfront hback, if_neg hin, if_pos hhi]
    exact ⟨hshort.ne, hreturns⟩

/-- An operation that reports an error leaves the updates as they were exactly if it has none to add or
remove, or cannot report an error: it comes to the index and its calls on the files succeed. -/
theorem failed_unchanged_iff (F : Files ε σ) (s : Held σ) {op : Op} (hallowed : op.Allowed s.log) :
    (error? ((F.step op).run s) ≠ none → (left ((F.step op).run s)).log = s.log) ↔
      (op.Changes s.log → F.Completes s op) := by
  by_cases hop : op.Changes s.log
  · obtain ⟨hlen, hreturns⟩ := step_changes (F := F) hop
    constructor
    · intro hkeeps _
      rw [← hreturns]
      by_contra herror
      exact hlen (congrArg List.length (hkeeps herror))
    · intro hcompletes herror
      exact absurd (hreturns.mpr (hcompletes hop)) herror
  · constructor
    · exact fun _ h => absurd h hop
    · exact fun _ _ => step_unchanged hallowed hop

end Files

/-! ### The stream of the log model -/

/-- The stream and the file system of `Log`. -/
def obfilebuf : Files Failure Obfilebuf where
  position := position
  isOpen := Obfilebuf.isOpen
  put t := ofExcept fun os => putChunk os t
  flush := ofExcept Obstreambuf.flush
  seek pos := ofExcept fun os => Obfilebuf.seek os .begin pos.toInt
  truncate := ofExcept Obfilebuf.truncate
  openFile path mode := ofExcept fun os => Obfilebuf.open_ os path mode
  close := ofExcept Obfilebuf.close
  rename temp path := ofExcept fun os => do
    let world ← (os.dev.world.rename temp path).mapError Failure.errno
    pure { os with dev := { os.dev with world := world } }

def Log.held (L : Log) : Held Obfilebuf := ⟨L.state, L.logPathname, L.logTempPathname, L.os, L.log⟩

namespace Files

variable {L L' : Log} {os os' : Obfilebuf} {err : Option Code}

/-- A call that returns gives the state it has made. -/
theorem run_onFiles {m : EStateM Failure Obfilebuf Unit} {s : Held Obfilebuf}
    (h : m.run s.files = .ok ⟨⟩ os') :
    (onFiles m).run s = .ok ⟨⟩ { s with files := os' } := by
  rw [onFiles, run_onPart, h]

theorem run_putAll {ts : List Chunk} (h : Raft.putAll ts os = .ok os') :
    (obfilebuf.putAll ts).run os = .ok ⟨⟩ os' := by
  induction ts generalizing os with
  | nil =>
    rw [← Except.ok.inj h]
    rfl
  | cons t ts ih =>
    obtain ⟨os₁, hput, hrest⟩ := Fallible.bind_eq_ok.mp h
    have hcall : (obfilebuf.put t).run os = .ok ⟨⟩ os₁ := run_ofExcept hput
    rw [putAll, run_bind_ok hcall]
    exact ih hrest

theorem run_writeFrame {f : Frame} {flush : Bool} (h : Raft.writeFrame os f flush = .ok os') :
    (obfilebuf.writeFrame f flush).run os = .ok ⟨⟩ os' := by
  obtain ⟨os₁, hput, hflush⟩ := Fallible.bind_eq_ok.mp h
  rw [writeFrame, run_bind_ok (run_putAll hput)]
  split_ifs at hflush ⊢
  · exact run_ofExcept hflush
  · rw [← Except.ok.inj hflush]
    rfl

theorem run_writeState (h : L.writeState = .ok L') :
    obfilebuf.writeState.run L.held = .ok ⟨⟩ L'.held := by
  obtain ⟨os, hwrite, hL⟩ := Fallible.bind_eq_ok.mp h
  rw [writeState, run_get_bind, run_set_bind, ← Except.ok.inj hL]
  exact run_onFiles (run_writeFrame hwrite)

theorem run_append {ep : StateMachineUpdate} (h : L.append ep = .ok L') :
    (obfilebuf.append ep).run L.held = .ok ⟨⟩ L'.held := by
  obtain ⟨os, hwrite, h₁⟩ := Fallible.bind_eq_ok.mp h
  obtain ⟨os', hflush, hL⟩ := Fallible.bind_eq_ok.mp h₁
  let e : StateMachineUpdate := { ep with pos := Raft.position L.os }
  have hwritten : (onFiles (obfilebuf.writeFrame (.stateMachineUpdate e) true)).run
      { L.held with log := L.log ++ [e] } = .ok ⟨⟩ { L.held with log := L.log ++ [e], files := os } :=
    run_onFiles (run_writeFrame hwrite)
  have hflushed : obfilebuf.flush.run os = .ok ⟨⟩ os' := run_ofExcept hflush
  rw [append, run_get_bind, run_set_bind, ← Except.ok.inj hL]
  exact (run_bind_ok hwritten).trans (run_onFiles hflushed)

/-- How a function ends that reports this code, or none. -/
def ended {ε σ : Type} (s : Held σ) : Option Code → EStateM.Result (Report ε) (Held σ) Unit
  | none => .ok ⟨⟩ s
  | some c => .error (.code c) s

theorem run_updateReplicantState {self t v : UInt64}
    (h : L.updateReplicantState self t v = .ok (L', err)) :
    (obfilebuf.updateReplicantState self t v).run L.held = ended L'.held err := by
  unfold Log.updateReplicantState at h
  rw [updateReplicantState, run_get_bind]
  rw [show L.held.state = L.state from rfl]
  rcases hstate : L.state.updateFrom ⟨-1, false, self, t, v⟩ with e | state
  · rw [hstate] at h
    obtain ⟨rfl, rfl⟩ := Prod.mk.inj (Except.ok.inj h)
    rfl
  · rw [hstate] at h
    simp only at h ⊢
    rw [run_set_bind]
    split_ifs at h ⊢ with hdirty
    · obtain ⟨L₁, hwrite, h₁⟩ := Fallible.bind_eq_ok.mp h
      obtain ⟨rfl, rfl⟩ := Prod.mk.inj (Except.ok.inj h₁)
      have hwritten := run_writeState hwrite
      exact run_bind_ok hwritten
    · obtain ⟨rfl, rfl⟩ := Prod.mk.inj (Except.ok.inj h)
      rfl

theorem run_truncate {pos : Int64} (h : L.truncate pos = .ok L') :
    (onFiles (obfilebuf.truncateAt pos)).run L.held = .ok ⟨⟩ L'.held := by
  obtain ⟨os, hseek, h₁⟩ := Fallible.bind_eq_ok.mp h
  obtain ⟨os', htrunc, hL⟩ := Fallible.bind_eq_ok.mp h₁
  have hsought : (obfilebuf.seek pos).run L.os = .ok ⟨⟩ os := run_ofExcept hseek
  have htruncated : obfilebuf.truncate.run os = .ok ⟨⟩ os' := run_ofExcept htrunc
  rw [← Except.ok.inj hL]
  exact run_onFiles ((run_bind_ok hsought).trans htruncated)

theorem run_cutBack {index : UInt64} {back : StateMachineUpdate}
    (h : L.cutBack index back = .ok (L', err)) :
    (obfilebuf.cutBack index back).run L.held = ended L'.held err := by
  rw [Log.cutBack] at h
  rw [cutBack, run_get_bind]
  rw [show L.held.log = L.log from rfl]
  rcases hpop : Log.popBack index back.pos L.log.reverse with ⟨rest, truncateAt⟩
  rw [hpop] at h
  simp only [List.getLast?_reverse] at h ⊢
  rw [run_set_bind]
  rcases hhead : rest.head? with _ | e
  · rw [hhead] at h
    obtain ⟨rfl, rfl⟩ := Prod.mk.inj (Except.ok.inj h)
    rfl
  · rw [hhead] at h
    simp only at h ⊢
    split_ifs at h ⊢ with hindex
    · obtain ⟨rfl, rfl⟩ := Prod.mk.inj (Except.ok.inj h)
      rfl
    · obtain ⟨L₁, htrunc, h₁⟩ := Fallible.bind_eq_ok.mp h
      obtain ⟨rfl, rfl⟩ := Prod.mk.inj (Except.ok.inj h₁)
      exact run_truncate htrunc

theorem run_pruneBack_held {index : UInt64} (h : L.pruneBack index = .ok (L', err)) :
    (obfilebuf.pruneBack index).run L.held = ended L'.held err := by
  unfold Log.pruneBack at h
  split at h
  · next front back hfront hback =>
    rw [run_pruneBack (s := L.held) hfront hback]
    split_ifs at h ⊢
    · obtain ⟨rfl, rfl⟩ := Prod.mk.inj (Except.ok.inj h)
      rfl
    · exact run_cutBack h
    · obtain ⟨rfl, rfl⟩ := Prod.mk.inj (Except.ok.inj h)
      rfl
  · cases h

theorem run_writeEntries {es es' : List StateMachineUpdate} (s : Held Obfilebuf)
    (h : Log.writeEntries es os = .ok (es', os')) : ∀ done : List StateMachineUpdate,
      (obfilebuf.writeEntries done es).run { s with log := done ++ es, files := os } =
        .ok ⟨⟩ { s with log := done ++ es', files := os' } := by
  induction es generalizing es' os os' with
  | nil =>
    obtain ⟨rfl, rfl⟩ := Prod.mk.inj (Except.ok.inj h)
    exact fun _ => rfl
  | cons e es ih =>
    obtain ⟨os₁, hwrite, h₁⟩ := Fallible.bind_eq_ok.mp h
    obtain ⟨⟨es₂, os₂⟩, hrest, h₂⟩ := Fallible.bind_eq_ok.mp h₁
    obtain ⟨rfl, rfl⟩ := Prod.mk.inj (Except.ok.inj h₂)
    intro done
    let e' : StateMachineUpdate := { e with pos := Raft.position os }
    have hwritten : (onFiles (obfilebuf.writeFrame (.stateMachineUpdate e') false)).run
        { s with log := done ++ e' :: es, files := os } =
          .ok ⟨⟩ { s with log := done ++ e' :: es, files := os₁ } :=
      run_onFiles (run_writeFrame hwrite)
    have hlater := ih hrest (done ++ [e'])
    rw [List.append_assoc, List.append_assoc] at hlater
    rw [writeEntries, run_get_bind, run_set_bind]
    exact (run_bind_ok hwritten).trans hlater

theorem writeState_paths (h : L.writeState = .ok L') :
    L'.logPathname = L.logPathname ∧ L'.logTempPathname = L.logTempPathname := by
  obtain ⟨os, -, hL⟩ := Fallible.bind_eq_ok.mp h
  rw [← Except.ok.inj hL]
  exact ⟨rfl, rfl⟩

theorem run_rewrite (h : L.rewrite = .ok L') : obfilebuf.rewrite.run L.held = .ok ⟨⟩ L'.held := by
  obtain ⟨os₁, hclose, h₁⟩ := Fallible.bind_eq_ok.mp h
  obtain ⟨L₅, htemp, hreplace⟩ := Fallible.bind_eq_ok.mp h₁
  obtain ⟨os₂, hopen, h₂⟩ := Fallible.bind_eq_ok.mp htemp
  obtain ⟨⟨es, os₃⟩, hentries, h₃⟩ := Fallible.bind_eq_ok.mp h₂
  obtain ⟨L₄, hstate, h₄⟩ := Fallible.bind_eq_ok.mp h₃
  obtain ⟨os₅, hclose', hL₅⟩ := Fallible.bind_eq_ok.mp h₄
  obtain ⟨w, hrename, h₆⟩ := Fallible.bind_eq_ok.mp hreplace
  obtain ⟨os₇, hopen', hL⟩ := Fallible.bind_eq_ok.mp h₆
  rw [← Except.ok.inj hL₅] at hrename hopen' hL
  rw [← Except.ok.inj hL]
  let M₁ : Log := { L with os := os₁ }
  let M₂ : Log := { L with os := os₂ }
  let M₃ : Log := { L with os := os₃, log := es }
  have hclosed : (onFiles obfilebuf.close).run L.held = .ok ⟨⟩ M₁.held :=
    run_onFiles (run_ofExcept hclose)
  have hopened : (onFiles (obfilebuf.openFile L.logTempPathname .truncate)).run M₁.held = .ok ⟨⟩ M₂.held :=
    run_onFiles (run_ofExcept hopen)
  have hcopied : (obfilebuf.writeEntries [] L.log).run M₂.held = .ok ⟨⟩ M₃.held :=
    run_writeEntries L.held hentries []
  have hwritten : obfilebuf.writeState.run M₃.held = .ok ⟨⟩ L₄.held := run_writeState hstate
  obtain ⟨hpath, htemp'⟩ := writeState_paths hstate
  let M₅ : Log := { L₄ with os := os₅ }
  let M₆ : Log := M₅.setWorld w
  have hclosed' : (onFiles obfilebuf.close).run L₄.held = .ok ⟨⟩ M₅.held :=
    run_onFiles (run_ofExcept hclose')
  have hrenamed : (onFiles (obfilebuf.rename L₄.logTempPathname L₄.logPathname)).run M₅.held =
      .ok ⟨⟩ M₆.held := by
    refine run_onFiles (run_ofExcept ?_)
    show ((M₅.world.rename L₄.logTempPathname L₄.logPathname).mapError Failure.errno >>= _) = _
    rw [hrename]
    rfl
  have hopened' : (onFiles (obfilebuf.openFile L₄.logPathname .append)).run M₆.held =
      .ok ⟨⟩ { M₆.held with files := os₇ } := run_onFiles (run_ofExcept hopen')
  rw [hpath, htemp'] at hrenamed
  rw [hpath] at hopened'
  rw [rewrite, run_bind_ok hclosed, run_get_bind]
  refine (run_bind_ok hopened).trans ((run_bind_ok hcopied).trans ((run_bind_ok hwritten).trans ?_))
  exact (run_bind_ok hclosed').trans ((run_bind_ok hrenamed).trans hopened')

/-- `close( discard )` on an error is a call too. -/
theorem closeOnError_held {c : Code} (h : L.closeOnError c = .ok (L', err)) :
    obfilebuf.closeOnError L.held = L'.held ∧ err = some c := by
  obtain ⟨os, hclose, hL⟩ := Fallible.bind_eq_ok.mp h
  obtain ⟨rfl, rfl⟩ := Prod.mk.inj (Except.ok.inj hL)
  refine ⟨?_, rfl⟩
  unfold closeOnError
  unfold Obfilebuf.closeIfOpen at hclose
  rw [show obfilebuf.isOpen L.held.files = Obfilebuf.isOpen L.os from rfl]
  split_ifs at hclose ⊢
  · have hclosed : obfilebuf.close.run L.held.files = .ok ⟨⟩ os := run_ofExcept hclose
    rw [hclosed]
    rfl
  · rw [← Except.ok.inj hclose]

theorem run_pruneFront {index : UInt64} (h : L.pruneFront index = .ok (L', err)) :
    (obfilebuf.pruneFront index).run L.held = ended L'.held err := by
  have hreported : ∀ {M : Log} {c : Code}, M.closeOnError c = .ok (L', err) →
      (obfilebuf.tryPruneFront index).run L.held = .error (.code c) M.held →
      (obfilebuf.pruneFront index).run L.held = ended L'.held err := by
    intro M c hclose htry
    obtain ⟨hclosed, rfl⟩ := closeOnError_held hclose
    rw [pruneFront, run_onError, htry]
    simp only [hclosed]
    rfl
  have hreturned : ∀ {M : Log}, (obfilebuf.tryPruneFront index).run L.held = .ok ⟨⟩ M.held →
      (obfilebuf.pruneFront index).run L.held = .ok ⟨⟩ M.held := by
    intro M htry
    rw [pruneFront, run_onError, htry]
  unfold Log.pruneFront at h
  split at h
  · next front back hfront hback =>
    have htry := run_tryPruneFront (F := obfilebuf) (s := L.held) index hfront hback
    rw [cutFront, run_get_bind, run_set_bind, show L.held.log = L.log from rfl] at htry
    split_ifs at h htry with hrange hlo
    · exact hreported h htry
    · simp only at h
      rcases hhead : (L.log.dropWhile fun e => decide (e.index < index)).head? with _ | e
      · rw [hhead] at h htry
        exact hreported h htry
      · rw [hhead] at h htry
        simp only at h htry
        split_ifs at h htry with hindex
        · exact hreported h htry
        · obtain ⟨L₁, hrewrite, hL⟩ := Fallible.bind_eq_ok.mp h
          obtain ⟨rfl, rfl⟩ := Prod.mk.inj (Except.ok.inj hL)
          have hwritten := run_rewrite hrewrite
          exact hreturned (htry.trans hwritten)
    · obtain ⟨rfl, rfl⟩ := Prod.mk.inj (Except.ok.inj h)
      exact hreturned htry
  · cases h

/-- The steps of `Log` that return are steps over its stream. -/
theorem run_step {op : Op} (h : L.step op = .ok (L', err)) :
    (obfilebuf.step op).run L.held = ended L'.held err := by
  cases op with
  | append ep =>
    obtain ⟨L₁, hcall, hL⟩ := Fallible.bind_eq_ok.mp h
    obtain ⟨rfl, rfl⟩ := Prod.mk.inj (Except.ok.inj hL)
    exact run_append hcall
  | updateReplicantState self t v => exact run_updateReplicantState h
  | pruneFront index => exact run_pruneFront h
  | pruneBack index => exact run_pruneBack_held h

end Files

/-- An index out of range is refused, and no update is lost. -/
theorem outOfRange_unchanged : ∃ L, (started >>= fun L => L.append ⟨-1, 1, 1, []⟩) = .ok L ∧
    error? ((obfilebuf.step (.pruneBack 5)).run L.held) = some (.code .invalidArgument) ∧
    (left ((obfilebuf.step (.pruneBack 5)).run L.held)).log = L.log := by
  have hrun : (started >>= fun L => L.append ⟨-1, 1, 1, []⟩).map (fun L =>
      (error? ((obfilebuf.step (.pruneBack 5)).run L.held), L.log.map (·.index))) =
      .ok (some (.code .invalidArgument), [1]) := by decide +kernel
  obtain ⟨L, hL, h⟩ := Fallible.map_eq_ok.mp hrun
  obtain ⟨herror, hindices⟩ := Prod.mk.inj h
  obtain ⟨e, hlog, hindex⟩ := List.map_eq_singleton_iff.mp hindices
  have hallowed : (Op.pruneBack 5).Allowed L.held.log := by
    show L.log ≠ []
    rw [hlog]
    exact List.cons_ne_nil e []
  have hfits : (Op.pruneBack 5).Changes L.held.log → Files.Completes obfilebuf L.held (.pruneBack 5) := by
    rintro ⟨front, -, back, hback, -, hlt⟩
    rw [show L.held.log = [e] from hlog] at hback
    have hsame : e = back := Option.some.inj hback
    rw [← hsame, show e.index = 1 from hindex] at hlt
    exact absurd hlt (by decide)
  have hkeeps := (Files.failed_unchanged_iff obfilebuf L.held hallowed).mpr hfits
  refine ⟨L, hL, herror, hkeeps ?_⟩
  rw [herror]
  exact Option.some_ne_none _

/-- A `prune_front` that is refused has closed the file, so that the next `append` fails with the
update in memory. -/
theorem closedAppend_added : ∃ L,
    (started >>= fun L => L.run [.append ⟨-1, 1, 1, []⟩, .pruneFront 5]) = .ok L ∧
    error? ((obfilebuf.step (.append ⟨-1, 1, 2, []⟩)).run L.held) = some (.io (.errno .badf)) ∧
    (left ((obfilebuf.step (.append ⟨-1, 1, 2, []⟩)).run L.held)).log ≠ L.log := by
  have hrun : (started >>= fun L => L.run [.append ⟨-1, 1, 1, []⟩, .pruneFront 5]).map (fun L =>
      (error? ((obfilebuf.step (.append ⟨-1, 1, 2, []⟩)).run L.held),
        (left ((obfilebuf.step (.append ⟨-1, 1, 2, []⟩)).run L.held)).log.length, L.log.length)) =
      .ok (some (.io (.errno .badf)), 2, 1) := by decide +kernel
  obtain ⟨L, hL, h⟩ := Fallible.map_eq_ok.mp hrun
  obtain ⟨herror, h⟩ := Prod.mk.inj h
  obtain ⟨hafter, hbefore⟩ := Prod.mk.inj h
  refine ⟨L, hL, herror, fun hlog => ?_⟩
  rw [hlog, hbefore] at hafter
  cases hafter

end Nodeoze.Raft
