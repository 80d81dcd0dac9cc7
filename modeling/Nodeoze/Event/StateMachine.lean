import Nodeoze.Lib.Runs

/-!
# The state machine

Events are posted to a `state_machine` from outside, from the actions of its transitions and from its
observers.  An event that is posted in a transition, or behind others that wait, is put into a queue;
when a transition is over and events wait, a callback is dispatched to the runloop that takes one of
them out and posts it.

Actions and observers are code of the user: whatever they do is a step of its own, and the calls of
`really_post` that have not returned are kept on a stack.  `posted` and `processed` record which
events were posted, and which were looked up in the table.

The callback posts through the same door as everyone else.  If another event waits, the one that was
taken out goes to the end of the queue, and no callback is dispatched for either.
-/

namespace Nodeoze.Event.StateMachine

open Runs

variable {State Event Data : Type}

/-- `context`; the data and the error code are one. -/
structure Context (T Data : Type) where
  value : T
  data : Data
  deriving DecidableEq, Repr

/-- An entry of `m_observers`. -/
structure Observer (State : Type) where
  id : Nat
  states : List State

/-- A call of `really_post` that waits for code of the user to return. -/
inductive Frame (State Data : Type)
  | action (last : Context State Data)
  | observer (last : Context State Data) (id : Nat) (todo : List (Observer State))

/-- The machine, the calls that have not returned and its callbacks on the runloop. -/
structure Machine (State Event Data : Type) where
  state : Context State Data
  inTransition : Bool
  queue : List (Context Event Data)
  observers : List (Observer State)
  observerId : Nat
  stack : List (Frame State Data)
  pending : Nat
  posted : List (Context Event Data)
  processed : List (Context Event Data)

variable [DecidableEq State]

namespace Machine

/-- `state_machine( name )` -/
def start (state : Context State Data) : Machine State Event Data :=
  ⟨state, false, [], [], 0, [], 0, [], []⟩

/-- The end of `really_post` behind the observers. -/
def finish (m : Machine State Event Data) : Machine State Event Data :=
  if m.queue.isEmpty then m else { m with pending := m.pending + 1 }

/-- The loop of `dispatch_observers`.  The state that is looked for is the one of the machine, which
an observer may have changed. -/
def notify (last : Context State Data) :
    List (Observer State) → Machine State Event Data → Machine State Event Data
  | [], m => m.finish
  | o :: todo, m =>
    if o.states.isEmpty || o.states.contains m.state.value then
      { m with stack := .observer last o.id todo :: m.stack }
    else notify last todo m

section Steps

variable (table : State → Event → Option State)

/-- `really_post` -/
def reallyPost (m : Machine State Event Data) (e : Context Event Data) : Machine State Event Data :=
  if !m.inTransition && m.queue.isEmpty then
    let m := { m with processed := m.processed ++ [e] }
    match table m.state.value e.value with
    | none => m
    | some next =>
      if m.state.value ≠ next then
        { m with
          inTransition := true
          state := ⟨next, e.data⟩
          stack := .action m.state :: m.stack }
      else notify m.state m.observers m
  else { m with queue := m.queue ++ [e] }

/-- The callback on the runloop. -/
def callback (m : Machine State Event Data) : Machine State Event Data :=
  match m.queue with
  | [] => m
  | e :: rest => reallyPost table { m with queue := rest } e

end Steps

end Machine

/-- What the code around the machine does: it posts, it observes, an action or an observer returns
(an observer says whether it stays), and the runloop calls back. -/
inductive Act (State Event Data : Type)
  | post (e : Context Event Data)
  | observe (states : List State)
  | ret (stays : Bool)
  | callback

variable (table : State → Event → Option State)

def step (m : Machine State Event Data) : Act State Event Data → Option (Machine State Event Data)
  | .post e => some (Machine.reallyPost table { m with posted := m.posted ++ [e] } e)
  | .observe states =>
    some { m with
      observers := m.observers ++ [⟨m.observerId + 1, states⟩]
      observerId := m.observerId + 1 }
  | .ret stays =>
    match m.stack with
    | [] => none
    | .action last :: stack =>
      some (Machine.notify last m.observers { m with stack := stack, inTransition := false })
    | .observer last id todo :: stack =>
      let observers := if stays then m.observers else m.observers.filter (·.id ≠ id)
      some (Machine.notify last todo { m with stack := stack, observers := observers })
  | .callback =>
    if m.stack.isEmpty && decide (0 < m.pending) then
      some (Machine.callback table { m with pending := m.pending - 1 })
    else none

/-! ## What a run keeps -/

/-- Events are processed once each in the order in which they were posted, and none waits when the
machine is at rest: no action or observer runs, and no callback is pending. -/
def InOrder (m : Machine State Event Data) : Prop :=
  m.posted = m.processed ++ m.queue ∧ (m.stack = [] → m.pending = 0 → m.queue = [])

/-- No event is posted while another waits. -/
def Alone (m : Machine State Event Data) : Act State Event Data → Prop
  | .post _ => m.queue = []
  | _ => True

/-- Only observers. -/
def Observing (stack : List (Frame State Data)) : Prop :=
  ∀ f ∈ stack, ∃ last id todo, f = .observer last id todo

/-- An action can only be at the top of the stack: what it posts is put into the queue. -/
def Shape : Bool → List (Frame State Data) → Prop
  | false, stack => Observing stack
  | true, .action _ :: rest => Observing rest
  | true, _ => False

structure Inv (m : Machine State Event Data) : Prop where
  order : m.posted = m.processed ++ m.queue
  few : m.queue.length ≤ 1
  woken : m.queue ≠ [] → m.stack ≠ [] ∨ 0 < m.pending
  shape : Shape m.inTransition m.stack

omit [DecidableEq State] in
theorem inv_start (state : Context State Data) : Inv (Machine.start state : Machine State Event Data) where
  order := rfl
  few := Nat.zero_le _
  woken := fun h => absurd rfl h
  shape := fun _ hf => absurd hf List.not_mem_nil

omit [DecidableEq State] in
theorem Observing.cons {stack : List (Frame State Data)} (h : Observing stack)
    (last : Context State Data) (id : Nat) (todo : List (Observer State)) :
    Observing (.observer last id todo :: stack) := by
  intro f hf
  rcases List.mem_cons.mp hf with rfl | hin
  · exact ⟨last, id, todo, rfl⟩
  · exact h f hin

omit [DecidableEq State] in
theorem Observing.tail {f : Frame State Data} {stack : List (Frame State Data)}
    (h : Observing (f :: stack)) : Observing stack := fun g hg => h g (List.mem_cons_of_mem f hg)

/-- The observers run one after the other, or `really_post` comes to its end. -/
theorem notify_cases (last : Context State Data) (todo : List (Observer State))
    (m : Machine State Event Data) :
    (∃ id rest, m.notify last todo = { m with stack := .observer last id rest :: m.stack }) ∨
      m.notify last todo = m.finish := by
  induction todo with
  | nil => exact .inr rfl
  | cons o todo ih =>
    by_cases h : (o.states.isEmpty || o.states.contains m.state.value) = true
    · left
      refine ⟨o.id, todo, ?_⟩
      rw [Machine.notify, if_pos h]
    · rw [Machine.notify, if_neg h]
      exact ih

theorem inv_notify {m : Machine State Event Data} (horder : m.posted = m.processed ++ m.queue)
    (hfew : m.queue.length ≤ 1) (hidle : m.inTransition = false) (hstack : Observing m.stack)
    (last : Context State Data) (todo : List (Observer State)) : Inv (m.notify last todo) := by
  rcases notify_cases last todo m with ⟨id, rest, heq⟩ | heq
  · rw [heq]
    refine ⟨horder, hfew, fun _ => .inl (by simp), ?_⟩
    rw [hidle]
    exact hstack.cons last id rest
  · rw [heq]
    unfold Machine.finish
    split_ifs with hempty
    · refine ⟨horder, hfew, fun hne => absurd (List.isEmpty_iff.mp hempty) hne, ?_⟩
      rw [hidle]
      exact hstack
    · refine ⟨horder, hfew, fun _ => .inr (Nat.succ_pos _), ?_⟩
      change Shape m.inTransition m.stack
      rw [hidle]
      exact hstack

/-- An event that is looked up at once. -/
theorem inv_process {m : Machine State Event Data} {e : Context Event Data}
    (horder : m.posted = m.processed ++ [e]) (hempty : m.queue = []) (hidle : m.inTransition = false)
    (hstack : Observing m.stack) : Inv (m.reallyPost table e) := by
  unfold Machine.reallyPost
  rw [if_pos (by simp [hidle, hempty])]
  dsimp only
  cases table m.state.value e.value with
  | none =>
    refine ⟨by simpa [hempty] using horder, by simp [hempty], fun hne => absurd hempty hne, ?_⟩
    change Shape m.inTransition m.stack
    rw [hidle]
    exact hstack
  | some next =>
    by_cases hnext : m.state.value ≠ next
    · dsimp only
      rw [if_pos hnext]
      exact ⟨by simpa [hempty] using horder, by simp [hempty], fun hne => absurd hempty hne, hstack⟩
    · dsimp only
      rw [if_neg hnext]
      apply inv_notify
      · simpa [hempty] using horder
      · simp [hempty]
      · exact hidle
      · exact hstack

omit [DecidableEq State] in
/-- At the bottom no action runs. -/
theorem Shape.idle {inTransition : Bool} (h : Shape inTransition ([] : List (Frame State Data))) :
    inTransition = false := by
  cases inTransition with
  | false => rfl
  | true => exact h.elim

omit [DecidableEq State] in
theorem Shape.idle_of_observer {inTransition : Bool} {last : Context State Data} {id : Nat}
    {todo : List (Observer State)} {stack : List (Frame State Data)}
    (h : Shape inTransition (.observer last id todo :: stack)) : inTransition = false := by
  cases inTransition with
  | false => rfl
  | true => exact h.elim

theorem Inv.post {m : Machine State Event Data} (h : Inv m) (halone : m.queue = [])
    (e : Context Event Data) :
    Inv (Machine.reallyPost table { m with posted := m.posted ++ [e] } e) := by
  have horder : m.posted ++ [e] = m.processed ++ [e] := by simp [h.order, halone]
  by_cases htrans : m.inTransition = false
  · have hshape := h.shape
    rw [htrans] at hshape
    exact inv_process table horder halone htrans hshape
  · have hstack : m.stack ≠ [] := by
      intro hnil
      have hshape := h.shape
      rw [hnil] at hshape
      exact htrans hshape.idle
    unfold Machine.reallyPost
    rw [if_neg (by simp [htrans])]
    refine ⟨?_, by simp [halone], fun _ => .inl hstack, h.shape⟩
    change m.posted ++ [e] = m.processed ++ (m.queue ++ [e])
    rw [horder, halone, List.nil_append]

theorem Inv.ret {m m' : Machine State Event Data} (h : Inv m) {stays : Bool}
    (hstep : step table m (.ret stays) = some m') : Inv m' := by
  have hshape := h.shape
  cases hstack : m.stack with
  | nil => simp [step, hstack] at hstep
  | cons f stack =>
    rw [hstack] at hshape
    cases f with
    | action last =>
      simp only [step, hstack, Option.some.injEq] at hstep
      subst hstep
      have hrest : Observing stack := by
        generalize m.inTransition = inTransition at hshape
        cases inTransition with
        | true => exact hshape
        | false => exact hshape.tail
      apply inv_notify
      · exact h.order
      · exact h.few
      · rfl
      · exact hrest
    | observer last id todo =>
      simp only [step, hstack, Option.some.injEq] at hstep
      subst hstep
      have hidle : m.inTransition = false := hshape.idle_of_observer
      rw [hidle] at hshape
      apply inv_notify
      · exact h.order
      · exact h.few
      · exact hidle
      · exact hshape.tail

theorem callback_inv {m m' : Machine State Event Data} (hstep : step table m .callback = some m') :
    m.stack = [] ∧ 0 < m.pending ∧ m' = Machine.callback table { m with pending := m.pending - 1 } := by
  simp only [step] at hstep
  split_ifs at hstep with hcond
  rw [Bool.and_eq_true, List.isEmpty_iff, decide_eq_true_eq] at hcond
  exact ⟨hcond.1, hcond.2, (Option.some.inj hstep).symm⟩

theorem Inv.callback {m m' : Machine State Event Data} (h : Inv m)
    (hstep : step table m .callback = some m') : Inv m' := by
  obtain ⟨hstack, -, rfl⟩ := callback_inv table hstep
  have hshape := h.shape
  rw [hstack] at hshape
  have hidle : m.inTransition = false := hshape.idle
  cases hqueue : m.queue with
  | nil =>
    have horder := h.order
    rw [hqueue] at horder
    exact ⟨horder, Nat.zero_le _, fun hne => absurd rfl hne, h.shape⟩
  | cons e rest =>
    have hfew := h.few
    rw [hqueue] at hfew
    obtain rfl : rest = [] := List.length_eq_zero_iff.mp (by simpa using hfew)
    apply inv_process
    · rw [← hqueue]
      exact h.order
    · rfl
    · exact hidle
    · change Observing m.stack
      rw [hstack]
      exact fun _ hf => absurd hf List.not_mem_nil

/-- One step, of an event that is posted while none waits. -/
theorem inv_step (m : Machine State Event Data) (a : Act State Event Data) (m' : Machine State Event Data)
    (h : Inv m) (halone : Alone m a) (hstep : step table m a = some m') : Inv m' := by
  cases a with
  | post e =>
    obtain rfl := Option.some.inj hstep
    exact h.post table halone e
  | observe states =>
    obtain rfl := Option.some.inj hstep
    exact ⟨h.order, h.few, h.woken, h.shape⟩
  | ret stays => exact h.ret table hstep
  | callback => exact h.callback table hstep

omit [DecidableEq State] in
theorem Inv.inOrder {m : Machine State Event Data} (h : Inv m) : InOrder m := by
  refine ⟨h.order, ?_⟩
  intro hstack hpending
  by_contra hne
  rcases h.woken hne with hframes | hcallback
  · exact hframes hstack
  · omega

/-! ## Events that wait forever -/

theorem queue_notify (last : Context State Data) (todo : List (Observer State))
    (m : Machine State Event Data) : (m.notify last todo).queue = m.queue := by
  rcases notify_cases last todo m with ⟨id, rest, heq⟩ | heq
  · rw [heq]
  · rw [heq]
    unfold Machine.finish
    split_ifs <;> rfl

theorem queue_push {m : Machine State Event Data} (hne : m.queue ≠ []) (e : Context Event Data) :
    (m.reallyPost table e).queue = m.queue ++ [e] := by
  unfold Machine.reallyPost
  rw [if_neg (by simp [hne])]

/-- When two events wait, two wait after every step. -/
theorem two_wait (m : Machine State Event Data) (a : Act State Event Data) (m' : Machine State Event Data)
    (h : 2 ≤ m.queue.length) (hstep : step table m a = some m') : 2 ≤ m'.queue.length := by
  have hne : m.queue ≠ [] := by
    intro hnil
    simp [hnil] at h
  cases a with
  | post e =>
    obtain rfl := Option.some.inj hstep
    have hpush := queue_push table (m := { m with posted := m.posted ++ [e] }) hne e
    rw [hpush, List.length_append]
    exact Nat.le_trans h (Nat.le_add_right _ _)
  | observe states =>
    obtain rfl := Option.some.inj hstep
    exact h
  | ret stays =>
    cases hstack : m.stack with
    | nil => simp [step, hstack] at hstep
    | cons f stack =>
      cases f <;>
      · simp only [step, hstack, Option.some.injEq] at hstep
        subst hstep
        rw [queue_notify]
        exact h
  | callback =>
    obtain ⟨-, -, rfl⟩ := callback_inv table hstep
    cases hqueue : m.queue with
    | nil => exact absurd hqueue hne
    | cons e rest =>
      rw [hqueue, List.length_cons] at h
      simp only [Machine.callback]
      have hrest : rest ≠ [] := by
        rintro rfl
        simp at h
      have hpush := queue_push table (m := { m with pending := m.pending - 1, queue := rest }) hrest e
      rw [hpush, List.length_append]
      exact h

/-! ## Runs -/

/-- In a run in which no event is posted while another waits, events are processed once each in order
and none is left; once two events wait, they wait in every later state. -/
theorem events_in_order (state : Context State Data) (as : List (Act State Event Data))
    (m : Machine State Event Data) (h : run (step table) (.start state) as = some m) :
    (Meets (step table) Alone (.start state) as → InOrder m) ∧
      (2 ≤ m.queue.length → ∀ (bs : List (Act State Event Data)) (m' : Machine State Event Data),
        run (step table) m bs = some m' → m'.stack = [] → m'.pending = 0 → ¬ InOrder m') := by
  constructor
  · intro hmeets
    exact (invariant_of_meets (inv_step table) hmeets h (inv_start state)).inOrder
  · intro htwo bs m' hrun hstack hpending hinorder
    have hwait := invariant (two_wait table) hrun htwo
    rw [hinorder.2 hstack hpending] at hwait
    simp at hwait

/-- Every event leads to the state of its name. -/
def direct (_ : Nat) (e : Nat) : Option Nat := some e

/-- An action posts one event, which the callback takes up. -/
def oneWaits : List (Act Nat Nat Unit) :=
  [.post ⟨1, ()⟩, .post ⟨2, ()⟩, .ret true, .callback, .ret true]

theorem oneWaits_in_order :
    ∃ m, run (step direct) (.start ⟨0, ()⟩) oneWaits = some m ∧ m.processed = [⟨1, ()⟩, ⟨2, ()⟩] ∧
      InOrder m := by
  refine ⟨_, rfl, rfl, (events_in_order direct ⟨0, ()⟩ oneWaits _ rfl).1 ?_⟩
  simp [oneWaits, Meets, step, Alone, Machine.start, Machine.reallyPost, Machine.callback, direct]

/-- An action posts two events: the callback turns them round, and then nothing is pending. -/
theorem twoWait_forever :
    ∃ m, run (step direct) (.start ⟨0, ()⟩)
        [.post ⟨1, ()⟩, .post ⟨2, ()⟩, .post ⟨3, ()⟩, .ret true, .callback] = some m ∧
      m.stack.isEmpty ∧ m.pending = 0 ∧ m.processed = [⟨1, ()⟩] ∧ m.queue = [⟨3, ()⟩, ⟨2, ()⟩] ∧
      ¬ InOrder m := by
  refine ⟨_, rfl, rfl, rfl, rfl, rfl, ?_⟩
  rintro ⟨horder, -⟩
  exact absurd horder (by decide)

end Nodeoze.Event.StateMachine
