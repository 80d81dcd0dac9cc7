import Nodeoze.Event.StateMachine
import Mathlib.Data.List.Chain
import Mathlib.Data.List.Nodup

/-!
# What the observers of a state machine are told

`dispatch_observers` goes through a copy of `m_observers` and tells every observer the state before the
transition and, by a reference, the state of the machine.  An observer that posts an event starts a transition
of its own before the observers behind it are told of the first one: they are told of the second transition
first, and then of the first one with a state that it did not enter.

`m_observers` is an unordered map, so an `Iteration` says in which order it is gone through.
-/

namespace Nodeoze.Event.StateMachine

open Runs

variable {State Event Data : Type}

deriving instance DecidableEq for Observer

/-- The two arguments of an observer. -/
structure Transition (State Data : Type) where
  last : Context State Data
  next : Context State Data
  deriving DecidableEq, Repr

/-- The order in which a copy of `m_observers` is gone through. -/
structure Iteration (State Event Data : Type) where
  order : Machine State Event Data → List (Observer State)
  perm : ∀ m, (order m).Perm m.observers

/-- The observers in the order in which they were registered. -/
def Iteration.registered : Iteration State Event Data where
  order m := m.observers
  perm m := .refl m.observers

/-- The machine, the transitions that it has processed, and the calls of its observers. -/
structure Recorded (State Event Data : Type) where
  machine : Machine State Event Data
  history : List (Transition State Data)
  calls : List (Observer State × Transition State Data)

/-- The observers that a call of `dispatch_observers` has still to go through. -/
def Frame.todo : Frame State Data → List (Observer State)
  | .action _ => []
  | .observer _ _ todo => todo

namespace Recorded

def start (state : Context State Data) : Recorded State Event Data := ⟨.start state, [], []⟩

/-- The same machine, at the beginning of a run. -/
def forget (r : Recorded State Event Data) : Recorded State Event Data :=
  { r with history := [], calls := [] }

variable [DecidableEq State]

/-- The loop of `dispatch_observers`, up to the next call. -/
def notify (last : Context State Data) :
    List (Observer State) → Recorded State Event Data → Recorded State Event Data
  | [], r => { r with machine := r.machine.finish }
  | o :: todo, r =>
    if o.states.isEmpty || o.states.contains r.machine.state.value then
      { r with
        machine := { r.machine with stack := .observer last o.id todo :: r.machine.stack }
        calls := r.calls ++ [(o, ⟨last, r.machine.state⟩)] }
    else notify last todo r

section Steps

variable (table : State → Event → Option State) (it : Iteration State Event Data)

/-- `dispatch_observers` -/
def dispatchObservers (r : Recorded State Event Data) (last : Context State Data) :
    Recorded State Event Data :=
  notify last (it.order r.machine) r

/-- `really_post` -/
def reallyPost (r : Recorded State Event Data) (e : Context Event Data) : Recorded State Event Data :=
  let m := r.machine
  if !m.inTransition && m.queue.isEmpty then
    let m := { m with processed := m.processed ++ [e] }
    match table m.state.value e.value with
    | none => { r with machine := m }
    | some next =>
      if m.state.value ≠ next then
        { r with
          machine := { m with
            inTransition := true
            state := ⟨next, e.data⟩
            stack := .action m.state :: m.stack }
          history := r.history ++ [⟨m.state, ⟨next, e.data⟩⟩] }
      else
        dispatchObservers it { r with machine := m, history := r.history ++ [⟨m.state, m.state⟩] } m.state
  else { r with machine := { m with queue := m.queue ++ [e] } }

/-- The callback on the runloop. -/
def callback (r : Recorded State Event Data) : Recorded State Event Data :=
  match r.machine.queue with
  | [] => r
  | e :: rest => reallyPost table it { r with machine := { r.machine with queue := rest } } e

def step (r : Recorded State Event Data) : Act State Event Data → Option (Recorded State Event Data)
  | .post e =>
    some (reallyPost table it { r with machine := { r.machine with posted := r.machine.posted ++ [e] } } e)
  | .observe states =>
    some { r with
      machine := { r.machine with
        observers := r.machine.observers ++ [⟨r.machine.observerId + 1, states⟩]
        observerId := r.machine.observerId + 1 } }
  | .ret stays =>
    match r.machine.stack with
    | [] => none
    | .action last :: stack =>
      let m := { r.machine with stack := stack, inTransition := false }
      some (dispatchObservers it { r with machine := m } last)
    | .observer last id todo :: stack =>
      let observers := if stays then r.machine.observers else r.machine.observers.filter (·.id ≠ id)
      let m := { r.machine with stack := stack, observers := observers }
      some (notify last todo { r with machine := m })
  | .callback =>
    if r.machine.stack.isEmpty && decide (0 < r.machine.pending) then
      let m := { r.machine with pending := r.machine.pending - 1 }
      some (callback table it { r with machine := m })
    else none

end Steps

/-! ## The machine is the one of before -/

section

variable (table : State → Event → Option State)

theorem machine_notify (last : Context State Data) (todo : List (Observer State))
    (r : Recorded State Event Data) : (r.notify last todo).machine = r.machine.notify last todo := by
  induction todo with
  | nil => rfl
  | cons o todo ih =>
    rw [notify, Machine.notify]
    by_cases h : (o.states.isEmpty || o.states.contains r.machine.state.value) = true
    · rw [if_pos h, if_pos h]
    · rw [if_neg h, if_neg h]
      exact ih

theorem machine_reallyPost (r : Recorded State Event Data) (e : Context Event Data) :
    (reallyPost table .registered r e).machine = r.machine.reallyPost table e := by
  unfold reallyPost Machine.reallyPost
  dsimp only
  by_cases h : (!r.machine.inTransition && r.machine.queue.isEmpty) = true
  · rw [if_pos h, if_pos h]
    cases table r.machine.state.value e.value with
    | none => rfl
    | some next =>
      dsimp only
      by_cases hnext : r.machine.state.value ≠ next
      · rw [if_pos hnext, if_pos hnext]
      · rw [if_neg hnext, if_neg hnext]
        exact machine_notify _ _ _
  · rw [if_neg h, if_neg h]

/-- Without what is recorded, and with the observers in the order of their registration. -/
theorem machine_step (r : Recorded State Event Data) (a : Act State Event Data) :
    (step table .registered r a).map machine = StateMachine.step table r.machine a := by
  cases a with
  | post e => exact congrArg some (machine_reallyPost table _ e)
  | observe states => rfl
  | ret stays =>
    rw [step, StateMachine.step]
    cases r.machine.stack with
    | nil => rfl
    | cons f stack =>
      cases f with
      | action last => exact congrArg some (machine_notify _ _ _)
      | observer last id todo => exact congrArg some (machine_notify _ _ _)
  | callback =>
    rw [step, StateMachine.step]
    by_cases h : (r.machine.stack.isEmpty && decide (0 < r.machine.pending)) = true
    · rw [if_pos h, if_pos h]
      apply congrArg some
      rw [callback, Machine.callback]
      dsimp only
      cases r.machine.queue with
      | nil => rfl
      | cons e rest => exact machine_reallyPost table _ e
    · rw [if_neg h, if_neg h]
      rfl

end

/-! ## What a run keeps -/

section

variable {r : Recorded State Event Data} {o : Observer State} {last : Context State Data}
  {todo : List (Observer State)}

omit [DecidableEq State] in
theorem finish_eq (m : Machine State Event Data) : ∃ pending, m.finish = { m with pending := pending } := by
  unfold Machine.finish
  by_cases h : m.queue.isEmpty = true
  · exact ⟨m.pending, if_pos h⟩
  · exact ⟨m.pending + 1, if_neg h⟩

/-- The loop calls an observer, and none that it has passed over is one for all states; or it ends. -/
theorem notify_calls (last : Context State Data) (todo : List (Observer State))
    (r : Recorded State Event Data) :
    (∃ called rest, (called :: rest).Sublist todo ∧ (∀ o ∈ todo, o.states = [] → o ∈ called :: rest) ∧
      r.notify last todo = { r with
        machine := { r.machine with stack := .observer last called.id rest :: r.machine.stack }
        calls := r.calls ++ [(called, ⟨last, r.machine.state⟩)] }) ∨
    ((∀ o ∈ todo, o.states ≠ []) ∧ r.notify last todo = { r with machine := r.machine.finish }) := by
  induction todo with
  | nil => exact .inr ⟨fun _ ho => absurd ho List.not_mem_nil, rfl⟩
  | cons o todo ih =>
    by_cases h : (o.states.isEmpty || o.states.contains r.machine.state.value) = true
    · left
      refine ⟨o, todo, .refl _, fun o' ho' _ => ho', ?_⟩
      rw [notify, if_pos h]
    · have hstates : o.states ≠ [] := by
        intro hnil
        simp [hnil] at h
      rw [notify, if_neg h]
      rcases ih with ⟨called, rest, hsub, hall, heq⟩ | ⟨hnone, heq⟩
      · left
        refine ⟨called, rest, hsub.cons o, ?_, heq⟩
        intro o' ho' hnil
        rcases List.mem_cons.mp ho' with rfl | hin
        · exact absurd hnil hstates
        · exact hall o' hin hnil
      · right
        refine ⟨?_, heq⟩
        intro o' ho'
        rcases List.mem_cons.mp ho' with rfl | hin
        · exact hstates
        · exact hnone o' hin

/-- Every transition starts in the state that the one before it has entered. -/
def Linked (history : List (Transition State Data)) : Prop :=
  history.IsChain fun s t => t.last = s.next

omit [DecidableEq State] in
/-- The observers are told apart, and the history leads to the state of the machine. -/
structure Sound (r : Recorded State Event Data) : Prop where
  nodup : r.machine.observers.Nodup
  bound : ∀ o ∈ r.machine.observers, o.id ≤ r.machine.observerId
  shape : Shape r.machine.inTransition r.machine.stack
  todos : ∀ f ∈ r.machine.stack, f.todo.Nodup
  linked : Linked r.history
  current : ∀ t ∈ r.history.getLast?, t.next = r.machine.state

omit [DecidableEq State] in
theorem sound_start (state : Context State Data) : Sound (start state : Recorded State Event Data) where
  nodup := .nil
  bound _ ho := absurd ho List.not_mem_nil
  shape _ hf := absurd hf List.not_mem_nil
  todos _ hf := absurd hf List.not_mem_nil
  linked := .nil
  current _ ht := by cases ht

omit [DecidableEq State] in
theorem Sound.forget (s : Sound r) : Sound r.forget where
  nodup := s.nodup
  bound := s.bound
  shape := s.shape
  todos := s.todos
  linked := .nil
  current _ ht := by cases ht

omit [DecidableEq State] in
theorem Sound.observing (s : Sound r) (hidle : r.machine.inTransition = false) :
    Observing r.machine.stack := by
  have hshape := s.shape
  rwa [hidle] at hshape

omit [DecidableEq State] in
/-- The next transition starts in the state of the machine. -/
theorem Sound.linked_append (s : Sound r) (next : Context State Data) :
    Linked (r.history ++ [⟨r.machine.state, next⟩]) := by
  rw [Linked, List.isChain_append]
  refine ⟨s.linked, List.isChain_singleton _, ?_⟩
  intro t ht t' ht'
  rw [List.head?_cons, Option.mem_some] at ht'
  rw [← ht', s.current t ht]

theorem Sound.notify (s : Sound r) (hidle : r.machine.inTransition = false) (htodo : todo.Nodup)
    (last : Context State Data) : Sound (r.notify last todo) := by
  rcases notify_calls last todo r with ⟨called, rest, hsub, -, heq⟩ | ⟨-, heq⟩
  · rw [heq]
    refine ⟨s.nodup, s.bound, ?_, ?_, s.linked, s.current⟩
    · show Shape r.machine.inTransition _
      rw [hidle]
      exact (s.observing hidle).cons last called.id rest
    · intro f hf
      rcases List.mem_cons.mp hf with rfl | hin
      · exact (List.nodup_cons.mp (htodo.sublist hsub)).2
      · exact s.todos f hin
  · obtain ⟨pending, hfinish⟩ := finish_eq r.machine
    rw [heq, hfinish]
    exact ⟨s.nodup, s.bound, s.shape, s.todos, s.linked, s.current⟩

theorem Sound.dispatchObservers (s : Sound r) (hidle : r.machine.inTransition = false)
    (it : Iteration State Event Data) (last : Context State Data) :
    Sound (r.dispatchObservers it last) :=
  s.notify hidle ((it.perm r.machine).nodup_iff.mpr s.nodup) last

omit [DecidableEq State] in
theorem accepts_iff {m : Machine State Event Data} :
    (!m.inTransition && m.queue.isEmpty) = true ↔ m.inTransition = false ∧ m.queue = [] := by
  rw [Bool.and_eq_true, Bool.not_eq_true', List.isEmpty_iff]

theorem Sound.reallyPost (s : Sound r) (table : State → Event → Option State)
    (it : Iteration State Event Data) (e : Context Event Data) : Sound (r.reallyPost table it e) := by
  unfold Recorded.reallyPost
  dsimp only
  by_cases h : (!r.machine.inTransition && r.machine.queue.isEmpty) = true
  · have hidle : r.machine.inTransition = false := (accepts_iff.mp h).1
    rw [if_pos h]
    cases table r.machine.state.value e.value with
    | none => exact ⟨s.nodup, s.bound, s.shape, s.todos, s.linked, s.current⟩
    | some next =>
      dsimp only
      by_cases hnext : r.machine.state.value ≠ next
      · rw [if_pos hnext]
        refine ⟨s.nodup, s.bound, s.observing hidle, ?_, s.linked_append _, ?_⟩
        · intro f hf
          rcases List.mem_cons.mp hf with rfl | hin
          · exact .nil
          · exact s.todos f hin
        · intro t ht
          rw [List.getLast?_concat, Option.mem_some] at ht
          rw [← ht]
      · rw [if_neg hnext]
        apply Sound.dispatchObservers
        · refine ⟨s.nodup, s.bound, s.shape, s.todos, s.linked_append _, ?_⟩
          intro t ht
          rw [List.getLast?_concat, Option.mem_some] at ht
          rw [← ht]
        · exact hidle
  · rw [if_neg h]
    exact ⟨s.nodup, s.bound, s.shape, s.todos, s.linked, s.current⟩

omit [DecidableEq State] in
/-- The stack when an action returns. -/
theorem Sound.action_below (s : Sound r) {stack : List (Frame State Data)}
    (hstack : r.machine.stack = .action last :: stack) :
    r.machine.inTransition = true ∧ Observing stack := by
  have hshape := s.shape
  rw [hstack] at hshape
  cases hin : r.machine.inTransition with
  | false =>
    rw [hin] at hshape
    obtain ⟨last', id, todo, heq⟩ := hshape _ List.mem_cons_self
    cases heq
  | true =>
    rw [hin] at hshape
    exact ⟨rfl, hshape⟩

omit [DecidableEq State] in
/-- The stack when an observer returns. -/
theorem Sound.observer_below (s : Sound r) {id : Nat} {stack : List (Frame State Data)}
    (hstack : r.machine.stack = .observer last id todo :: stack) :
    r.machine.inTransition = false ∧ Observing stack := by
  have hshape := s.shape
  rw [hstack] at hshape
  have hidle := hshape.idle_of_observer
  rw [hidle] at hshape
  exact ⟨hidle, hshape.tail⟩

omit [DecidableEq State] in
/-- The call on the top of the stack has returned. -/
theorem Sound.pop (s : Sound r) {f : Frame State Data} {stack : List (Frame State Data)}
    (hstack : r.machine.stack = f :: stack) (hbelow : Observing stack)
    {observers : List (Observer State)} (hsub : observers.Sublist r.machine.observers) :
    Sound { r with machine := { r.machine with
      stack := stack, inTransition := false, observers := observers } } where
  nodup := s.nodup.sublist hsub
  bound o ho := s.bound o (hsub.subset ho)
  shape := hbelow
  todos g hg := s.todos g (hstack ▸ List.mem_cons_of_mem f hg)
  linked := s.linked
  current := s.current

end

section

variable {table : State → Event → Option State} {it : Iteration State Event Data}
  {r r' : Recorded State Event Data} {a : Act State Event Data} {o : Observer State}

/-- What the steps are. -/
theorem step_ret {stays : Bool} (hstep : step table it r (.ret stays) = some r') :
    (∃ last stack, r.machine.stack = .action last :: stack ∧ r' = dispatchObservers it
      { r with machine := { r.machine with stack := stack, inTransition := false } } last) ∨
    ∃ last id todo stack observers, r.machine.stack = .observer last id todo :: stack ∧
      observers.Sublist r.machine.observers ∧ r' = notify last todo
        { r with machine := { r.machine with stack := stack, observers := observers } } := by
  cases hstack : r.machine.stack with
  | nil => simp [step, hstack] at hstep
  | cons f stack =>
    cases f with
    | action last =>
      simp only [step, hstack, Option.some.injEq] at hstep
      exact .inl ⟨last, stack, rfl, hstep.symm⟩
    | observer last id todo =>
      simp only [step, hstack, Option.some.injEq] at hstep
      refine .inr ⟨last, id, todo, stack, _, rfl, ?_, hstep.symm⟩
      by_cases hstays : stays = true
      · rw [if_pos hstays]
      · rw [if_neg hstays]
        exact List.filter_sublist

theorem step_callback (hstep : step table it r .callback = some r') :
    r.machine.stack = [] ∧
      ((∃ pending, r' = { r with machine := { r.machine with pending := pending } }) ∨
        ∃ pending queue e, r' = reallyPost table it
          { r with machine := { r.machine with pending := pending, queue := queue } } e) := by
  rw [step] at hstep
  split_ifs at hstep with hcond
  rw [Bool.and_eq_true, List.isEmpty_iff] at hcond
  refine ⟨hcond.1, ?_⟩
  rw [← Option.some.inj hstep, callback]
  cases r.machine.queue with
  | nil => exact .inl ⟨_, rfl⟩
  | cons e rest => exact .inr ⟨_, rest, e, rfl⟩

theorem Sound.step (s : Sound r) (hstep : Recorded.step table it r a = some r') : Sound r' := by
  cases a with
  | post e =>
    obtain rfl := Option.some.inj hstep
    apply Sound.reallyPost
    exact ⟨s.nodup, s.bound, s.shape, s.todos, s.linked, s.current⟩
  | observe states =>
    obtain rfl := Option.some.inj hstep
    refine ⟨?_, ?_, s.shape, s.todos, s.linked, s.current⟩
    · -- the new observer has an identifier of its own
      rw [List.nodup_append]
      refine ⟨s.nodup, List.nodup_singleton _, ?_⟩
      intro o ho o' ho' heq
      rw [List.mem_singleton] at ho'
      have hid := s.bound o ho
      rw [heq, ho'] at hid
      exact absurd hid (Nat.not_succ_le_self _)
    · intro o ho
      rcases List.mem_append.mp ho with hold | hnew
      · exact Nat.le_succ_of_le (s.bound o hold)
      · rw [List.mem_singleton] at hnew
        rw [hnew]
  | ret stays =>
    rcases step_ret hstep with ⟨last, stack, hstack, rfl⟩ |
      ⟨last, id, todo, stack, observers, hstack, hsub, rfl⟩
    · exact (s.pop hstack (s.action_below hstack).2 (.refl _)).dispatchObservers rfl it last
    · obtain ⟨hidle, hbelow⟩ := s.observer_below hstack
      have hpop := s.pop hstack hbelow hsub
      rw [← hidle] at hpop
      exact hpop.notify hidle (s.todos _ (hstack ▸ List.mem_cons_self)) last
  | callback =>
    obtain ⟨-, ⟨pending, rfl⟩ | ⟨pending, queue, e, rfl⟩⟩ := step_callback hstep
    · exact ⟨s.nodup, s.bound, s.shape, s.todos, s.linked, s.current⟩
    · apply Sound.reallyPost
      exact ⟨s.nodup, s.bound, s.shape, s.todos, s.linked, s.current⟩

end

/-! ## One observer -/

/-- What an observer was told. -/
def told (r : Recorded State Event Data) (o : Observer State) : List (Transition State Data) :=
  (r.calls.filter fun call => call.1 = o).map Prod.snd

/-- What the call on the top of the stack has still to tell an observer. -/
def outstanding (r : Recorded State Event Data) (o : Observer State) : List (Transition State Data) :=
  match r.machine.stack with
  | [] => []
  | .action last :: _ => [⟨last, r.machine.state⟩]
  | .observer last _ todo :: _ => if o ∈ todo then [⟨last, r.machine.state⟩] else []

/-- An observer for all states has been told the history, up to the transition that is going on. -/
structure SeesHistory (r : Recorded State Event Data) (o : Observer State) : Prop where
  exact : r.machine.stack = [] → r.told o = r.history
  sofar : r.told o = r.history ∨ ∃ t, r.history = r.told o ++ [t]
  linked : Linked (r.told o)

/-- No transition starts while a call further down has still to tell the observer of another one. -/
def Undisturbed (table : State → Event → Option State) (o : Observer State)
    (r : Recorded State Event Data) : Act State Event Data → Prop
  | .post e => r.machine.inTransition = false → r.machine.queue = [] →
      table r.machine.state.value e.value ≠ none → ∀ f ∈ r.machine.stack, o ∉ f.todo
  | _ => True

/-- The invariant: only the call on the top of the stack may have something to tell. -/
structure Follows (r : Recorded State Event Data) (o : Observer State) : Prop where
  below : ∀ f ∈ r.machine.stack.tail, o ∉ f.todo
  told : r.history = r.told o ++ r.outstanding o

section

variable {table : State → Event → Option State} {it : Iteration State Event Data}
  {r r' : Recorded State Event Data} {a : Act State Event Data} {o : Observer State}
  {last : Context State Data} {todo : List (Observer State)}

theorem outstanding_nil (hobserving : Observing r.machine.stack) (hnone : ∀ f ∈ r.machine.stack, o ∉ f.todo) :
    r.outstanding o = [] := by
  unfold outstanding
  cases hstack : r.machine.stack with
  | nil => rfl
  | cons f stack =>
    obtain ⟨last, id, todo, rfl⟩ := hobserving f (hstack ▸ List.mem_cons_self)
    exact if_neg (hnone _ (hstack ▸ List.mem_cons_self))

theorem Follows.sees (h : Follows r o) (s : Sound r) : r.SeesHistory o := by
  have htold := h.told
  refine ⟨?_, ?_, ?_⟩
  · intro hstack
    rw [outstanding, hstack, List.append_nil] at htold
    exact htold.symm
  · unfold outstanding at htold
    split at htold
    · rw [List.append_nil] at htold
      exact .inl htold.symm
    · exact .inr ⟨_, htold⟩
    · split_ifs at htold
      · exact .inr ⟨_, htold⟩
      · rw [List.append_nil] at htold
        exact .inl htold.symm
  · have hlinked := s.linked
    rw [htold] at hlinked
    exact hlinked.left_of_append

/-- The observers that are gone through are told of one transition, each of them once. -/
theorem follows_notify (hall : o.states = []) (hnodup : todo.Nodup)
    (hobserving : Observing r.machine.stack) (hbelow : ∀ f ∈ r.machine.stack, o ∉ f.todo)
    (hhistory : r.history = r.told o ++ if o ∈ todo then [⟨last, r.machine.state⟩] else []) :
    Follows (r.notify last todo) o := by
  rcases notify_calls last todo r with ⟨called, rest, hsub, hpassed, heq⟩ | ⟨hnone, heq⟩
  · rw [heq]
    refine ⟨hbelow, ?_⟩
    rw [hhistory]
    by_cases hcalled : called = o
    · have hmem : o ∈ todo := hsub.subset (hcalled ▸ List.mem_cons_self)
      have hrest : o ∉ rest := by
        rw [← hcalled]
        exact (List.nodup_cons.mp (hnodup.sublist hsub)).1
      simp [told, outstanding, hmem, hrest, hcalled]
    · have hiff : o ∈ rest ↔ o ∈ todo := by
        constructor
        · intro hrest
          exact hsub.subset (List.mem_cons_of_mem _ hrest)
        · intro hmem
          rcases List.mem_cons.mp (hpassed o hmem hall) with hsame | hrest
          · exact absurd hsame.symm hcalled
          · exact hrest
      simp [told, outstanding, hiff, hcalled]
  · obtain ⟨pending, hfinish⟩ := finish_eq r.machine
    have hmem : o ∉ todo := fun hin => hnone o hin hall
    rw [if_neg hmem] at hhistory
    rw [heq, hfinish]
    refine ⟨fun f hf => hbelow f (List.mem_of_mem_tail hf), ?_⟩
    have hnil : r.outstanding o = [] := outstanding_nil hobserving hbelow
    show r.history = r.told o ++ r.outstanding o
    rw [hnil]
    exact hhistory

theorem Follows.dispatchObservers (s : Sound r) (hmem : o ∈ r.machine.observers) (hall : o.states = [])
    (hobserving : Observing r.machine.stack) (hbelow : ∀ f ∈ r.machine.stack, o ∉ f.todo)
    (hhistory : r.history = r.told o ++ [⟨last, r.machine.state⟩]) :
    Follows (r.dispatchObservers it last) o := by
  have hin : o ∈ it.order r.machine := (it.perm r.machine).mem_iff.mpr hmem
  apply follows_notify hall ((it.perm r.machine).nodup_iff.mpr s.nodup) hobserving hbelow
  rw [if_pos hin]
  exact hhistory

theorem Follows.reallyPost (h : Follows r o) (s : Sound r) (hmem : o ∈ r.machine.observers)
    (hall : o.states = []) {e : Context Event Data} (hquiet : Undisturbed table o r (.post e)) :
    Follows (r.reallyPost table it e) o := by
  unfold Recorded.reallyPost
  dsimp only
  by_cases haccepts : (!r.machine.inTransition && r.machine.queue.isEmpty) = true
  · obtain ⟨hidle, hqueue⟩ := accepts_iff.mp haccepts
    have hobserving := s.observing hidle
    rw [if_pos haccepts]
    cases hnext : table r.machine.state.value e.value with
    | none => exact ⟨h.below, h.told⟩
    | some next =>
      have hbelow := hquiet hidle hqueue (by rw [hnext]; exact Option.some_ne_none next)
      have hhistory : r.history = r.told o := by
        have htold := h.told
        rwa [outstanding_nil hobserving hbelow, List.append_nil] at htold
      dsimp only
      by_cases hchanges : r.machine.state.value ≠ next
      · rw [if_pos hchanges]
        exact ⟨hbelow, congrArg (· ++ _) hhistory⟩
      · rw [if_neg hchanges]
        refine Follows.dispatchObservers ?_ hmem hall hobserving hbelow (congrArg (· ++ _) hhistory)
        refine ⟨s.nodup, s.bound, s.shape, s.todos, s.linked_append _, ?_⟩
        intro t ht
        rw [List.getLast?_concat, Option.mem_some] at ht
        rw [← ht]
  · rw [if_neg haccepts]
    exact ⟨h.below, h.told⟩

omit [DecidableEq State] in
/-- What only `observe` and an observer that returns change. -/
def registrations (r : Recorded State Event Data) : List (Observer State) × Nat :=
  (r.machine.observers, r.machine.observerId)

theorem registrations_notify (last : Context State Data) (todo : List (Observer State))
    (r : Recorded State Event Data) : (r.notify last todo).registrations = r.registrations := by
  rcases notify_calls last todo r with ⟨called, rest, -, -, heq⟩ | ⟨-, heq⟩
  · rw [heq]
    rfl
  · obtain ⟨pending, hfinish⟩ := finish_eq r.machine
    rw [heq, hfinish]
    rfl

theorem registrations_reallyPost (table : State → Event → Option State) (it : Iteration State Event Data)
    (r : Recorded State Event Data) (e : Context Event Data) :
    (r.reallyPost table it e).registrations = r.registrations := by
  unfold Recorded.reallyPost
  dsimp only
  by_cases haccepts : (!r.machine.inTransition && r.machine.queue.isEmpty) = true
  · rw [if_pos haccepts]
    cases table r.machine.state.value e.value with
    | none => rfl
    | some next =>
      dsimp only
      by_cases hchanges : r.machine.state.value ≠ next
      · rw [if_pos hchanges]
        rfl
      · rw [if_neg hchanges]
        exact registrations_notify _ _ _
  · rw [if_neg haccepts]
    rfl

/-- An observer that was registered before the step, and still is behind it, was there all the time. -/
theorem registered_before (hid : o.id ≤ r.machine.observerId)
    (hstep : Recorded.step table it r a = some r') :
    o.id ≤ r'.machine.observerId ∧ (o ∈ r'.machine.observers → o ∈ r.machine.observers) := by
  have hsame {q : Recorded State Event Data} (heq : q.registrations = r.registrations) :
      o.id ≤ q.machine.observerId ∧ (o ∈ q.machine.observers → o ∈ r.machine.observers) := by
    obtain ⟨hobservers, hcount⟩ := Prod.mk.inj heq
    rw [hobservers, hcount]
    exact ⟨hid, id⟩
  cases a with
  | post e =>
    obtain rfl := Option.some.inj hstep
    exact hsame (registrations_reallyPost table it _ e)
  | observe states =>
    obtain rfl := Option.some.inj hstep
    refine ⟨Nat.le_succ_of_le hid, ?_⟩
    intro hin
    rcases List.mem_append.mp hin with hold | hnew
    · exact hold
    · rw [List.mem_singleton] at hnew
      rw [hnew] at hid
      exact absurd hid (Nat.not_succ_le_self _)
  | ret stays =>
    rcases step_ret hstep with ⟨last, stack, -, rfl⟩ | ⟨last, id, todo, stack, observers, -, hsub, rfl⟩
    · exact hsame (registrations_notify _ _ _)
    · obtain ⟨hobservers, hcount⟩ := Prod.mk.inj (registrations_notify last todo
        { r with machine := { r.machine with stack := stack, observers := observers } })
      rw [hobservers, hcount]
      exact ⟨hid, fun hin => hsub.subset hin⟩
  | callback =>
    obtain ⟨-, ⟨pending, rfl⟩ | ⟨pending, queue, e, rfl⟩⟩ := step_callback hstep
    · exact ⟨hid, id⟩
    · exact hsame (registrations_reallyPost table it _ e)

theorem Follows.step (h : Follows r o) (s : Sound r) (hmem : o ∈ r.machine.observers)
    (hall : o.states = []) (hquiet : Undisturbed table o r a) (hstep : Recorded.step table it r a = some r')
    (hstays : o ∈ r'.machine.observers) : Follows r' o := by
  cases a with
  | post e =>
    obtain rfl := Option.some.inj hstep
    apply Follows.reallyPost
    · exact ⟨h.below, h.told⟩
    · exact ⟨s.nodup, s.bound, s.shape, s.todos, s.linked, s.current⟩
    · exact hmem
    · exact hall
    · exact hquiet
  | observe states =>
    obtain rfl := Option.some.inj hstep
    exact ⟨h.below, h.told⟩
  | ret stays =>
    have htold := h.told
    have hbelow := h.below
    rcases step_ret hstep with ⟨last, stack, hstack, rfl⟩ |
      ⟨last, id, todo, stack, observers, hstack, hsub, rfl⟩
    · rw [outstanding, hstack] at htold
      rw [hstack] at hbelow
      have hobserving := (s.action_below hstack).2
      exact Follows.dispatchObservers (s.pop hstack hobserving (.refl _)) hmem hall hobserving hbelow htold
    · rw [outstanding, hstack] at htold
      rw [hstack] at hbelow
      have hnodup := s.todos _ (hstack ▸ List.mem_cons_self)
      exact follows_notify hall hnodup (s.observer_below hstack).2 hbelow htold
  | callback =>
    obtain ⟨hstack, ⟨pending, rfl⟩ | ⟨pending, queue, e, rfl⟩⟩ := step_callback hstep
    · exact ⟨h.below, h.told⟩
    · apply Follows.reallyPost
      · exact ⟨h.below, h.told⟩
      · exact ⟨s.nodup, s.bound, s.shape, s.todos, s.linked, s.current⟩
      · exact hmem
      · exact hall
      · intro _ _ _ f hf
        rw [show r.machine.stack = [] from hstack] at hf
        exact absurd hf List.not_mem_nil

/-- The invariant of a run, for an observer that may leave it. -/
structure Keeps (r : Recorded State Event Data) (o : Observer State) : Prop where
  sound : Sound r
  old : o.id ≤ r.machine.observerId
  follows : o ∈ r.machine.observers → Follows r o

theorem Keeps.step (hall : o.states = []) (h : Keeps r o) (hquiet : Undisturbed table o r a)
    (hstep : Recorded.step table it r a = some r') : Keeps r' o := by
  obtain ⟨hold, hbefore⟩ := registered_before h.old hstep
  refine ⟨h.sound.step hstep, hold, ?_⟩
  intro hstays
  have hmem := hbefore hstays
  exact (h.follows hmem).step h.sound hmem hall hquiet hstep hstays

/-- A transition to another state that disturbs an observer: two transitions are outstanding then. -/
theorem Follows.disturbed (h : Follows r o) {e : Context Event Data}
    (hdisturbed : ¬Undisturbed table o r (.post e))
    (hchanges : table r.machine.state.value e.value ≠ some r.machine.state.value)
    (hstep : Recorded.step table it r (.post e) = some r') : ¬r'.SeesHistory o := by
  simp only [Undisturbed, not_forall, not_not] at hdisturbed
  obtain ⟨hidle, hqueue, hentry, f, hf, hwaits⟩ := hdisturbed
  have htold := h.told
  have hbelow := h.below
  obtain ⟨last, id, todo, stack, hstack, hmem⟩ : ∃ last id todo stack,
      r.machine.stack = .observer last id todo :: stack ∧ o ∈ todo := by
    cases hstack : r.machine.stack with
    | nil =>
      rw [hstack] at hf
      exact absurd hf List.not_mem_nil
    | cons g stack =>
      rw [hstack] at hf hbelow
      rcases List.mem_cons.mp hf with rfl | hin
      · cases f with
        | action last => exact absurd hwaits List.not_mem_nil
        | observer last id todo => exact ⟨last, id, todo, stack, rfl, hwaits⟩
      · exact absurd hwaits (hbelow f hin)
  rw [outstanding, hstack] at htold
  dsimp only at htold
  rw [if_pos hmem] at htold
  obtain ⟨next, hnext⟩ := Option.ne_none_iff_exists'.mp hentry
  have hne : r.machine.state.value ≠ next := by
    intro heq
    exact hchanges (heq ▸ hnext)
  have hlengths : r'.history.length = (r'.told o).length + 2 := by
    rw [← Option.some.inj hstep, Recorded.reallyPost]
    dsimp only
    rw [if_pos (accepts_iff.mpr ⟨hidle, hqueue⟩), hnext]
    dsimp only
    rw [if_pos hne]
    show (r.history ++ [_]).length = (r.told o).length + 2
    rw [htold, List.length_append, List.length_append]
    rfl
  intro hsees
  rcases hsees.sofar with hall | ⟨t, hlast⟩
  · rw [hall] at hlengths
    omega
  · rw [hlast, List.length_append, List.length_singleton] at hlengths
    omega

/-- Before the run, when no action and no observer is running. -/
theorem keeps_forget (s : Sound r) (hrest : r.machine.stack = []) (hmem : o ∈ r.machine.observers) :
    Keeps r.forget o := by
  refine ⟨s.forget, s.bound o hmem, fun _ => ⟨?_, ?_⟩⟩
  · intro f hf
    rw [show r.forget.machine.stack = [] from hrest] at hf
    exact absurd hf List.not_mem_nil
  · show [] = [] ++ r.forget.outstanding o
    rw [outstanding, show r.forget.machine.stack = [] from hrest]
    rfl

/-- The states that are reached. -/
theorem sound_of_run {state : Context State Data} {as : List (Act State Event Data)}
    (h : run (Recorded.step table it) (start state) as = some r) : Sound r :=
  invariant (fun _ _ _ s hstep => s.step hstep) h (sound_start state)

end

/-- In any run from any state that is reached and in which nothing is running: an observer for all states that
is registered before the run and still is sees the history, if it is not disturbed; and an event that disturbs
it and changes the state spoils what it sees. -/
theorem observers_see_history (table : State → Event → Option State) (it : Iteration State Event Data)
    (state : Context State Data) (as bs : List (Act State Event Data)) (r r' : Recorded State Event Data)
    (hreach : run (step table it) (start state) as = some r) (hrest : r.machine.stack = [])
    (o : Observer State) (hbefore : o ∈ r.machine.observers) (hall : o.states = [])
    (hrun : run (step table it) r.forget bs = some r')
    (hquiet : Meets (step table it) (Undisturbed table o) r.forget bs)
    (hstays : o ∈ r'.machine.observers) :
    r'.SeesHistory o ∧ ∀ e r'', ¬Undisturbed table o r' (.post e) →
      table r'.machine.state.value e.value ≠ some r'.machine.state.value →
      step table it r' (.post e) = some r'' → ¬r''.SeesHistory o := by
  have hbegin : Keeps r.forget o := keeps_forget (sound_of_run hreach) hrest hbefore
  have hkeeps : Keeps r' o := invariant_of_meets (I := fun q => Keeps q o)
    (fun _ _ _ h hquiet hstep => h.step hall hquiet hstep) hquiet hrun hbegin
  have hfollows := hkeeps.follows hstays
  exact ⟨hfollows.sees hkeeps.sound, fun _ _ hdisturbed hchanges hstep =>
    hfollows.disturbed hdisturbed hchanges hstep⟩

/-- Two observers for all states. -/
def bothObserve : List (Act Nat Nat Unit) := [.observe [], .observe []]

/-- The second observer posts an event and registers a third one. -/
def lastPosts : List (Act Nat Nat Unit) :=
  [.post ⟨1, ()⟩, .ret true, .ret true, .post ⟨2, ()⟩, .ret true, .ret true, .observe [], .ret true,
    .ret true]

theorem lastPosts_seen :
    ∃ r r', run (step direct .registered) (start ⟨0, ()⟩) bothObserve = some r ∧
      run (step direct .registered) r.forget lastPosts = some r' ∧ r'.machine.stack.isEmpty ∧
      r'.told ⟨1, []⟩ = [⟨⟨0, ()⟩, ⟨1, ()⟩⟩, ⟨⟨1, ()⟩, ⟨2, ()⟩⟩] ∧ r'.SeesHistory ⟨1, []⟩ := by
  refine ⟨_, _, rfl, rfl, rfl, by decide, ?_⟩
  apply And.left
  apply observers_see_history direct .registered ⟨0, ()⟩ bothObserve lastPosts _ _ rfl rfl _ _ rfl rfl
  · apply meets_cons rfl
    · intro _ _ _ f hf
      exact absurd hf List.not_mem_nil
    · iterate 2 apply meets_cons rfl trivial
      apply meets_cons rfl
      · intro _ _ _ f hf
        rw [List.mem_singleton.mp hf]
        exact List.not_mem_nil
      · iterate 5 apply meets_cons rfl trivial
        trivial
  · decide
  · decide

/-- The first observer posts an event before the second one is told of the first transition. -/
def firstPosts : List (Act Nat Nat Unit) :=
  [.post ⟨1, ()⟩, .ret true, .post ⟨2, ()⟩, .ret true, .ret true, .ret true, .ret true, .ret true]

/-- The second observer is told of the second transition first, and then of one that never was. -/
theorem firstPosts_misleads :
    ∃ r r', run (step direct .registered) (start ⟨0, ()⟩) bothObserve = some r ∧
      run (step direct .registered) r.forget firstPosts = some r' ∧ r'.machine.stack.isEmpty ∧
      r'.machine.observers = [⟨1, []⟩, ⟨2, []⟩] ∧
      r'.history = [⟨⟨0, ()⟩, ⟨1, ()⟩⟩, ⟨⟨1, ()⟩, ⟨2, ()⟩⟩] ∧
      r'.told ⟨2, []⟩ = [⟨⟨1, ()⟩, ⟨2, ()⟩⟩, ⟨⟨0, ()⟩, ⟨2, ()⟩⟩] ∧ ¬r'.SeesHistory ⟨2, []⟩ := by
  refine ⟨_, _, rfl, rfl, rfl, rfl, rfl, by decide, ?_⟩
  intro hsees
  exact absurd (hsees.exact rfl) (by decide)

end Recorded

end Nodeoze.Event.StateMachine
