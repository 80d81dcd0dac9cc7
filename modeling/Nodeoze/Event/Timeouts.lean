import Nodeoze.Lib.Runs
import Nodeoze.Lib.Tokens

/-!
# The timeout of a promise

The copies of a promise share a counted block.  `promise::timeout` makes a timer of the runloop, puts it into
the block, and gives the timer a function with one more copy; the function gives the timer up, and rejects
the promise if it is not finished.  The runloop gives a timer up by closing its handle, and libuv calls back
when it may be freed, with the function and the copy.

A run takes in any order what the program does with its promises, the calls of the timers, and the calls
after a handle is closed.  The functions that a promise was given are code of the program, and what they
keep counts as the program's.  As long as one runs, the object whose member has called it is not assigned
to, moved from or destroyed.  libuv calls back one at a time.

`reset` does not set the timer of the block that it makes; what it holds is part of the operation.
-/

namespace Nodeoze.Event.Timeouts

open RefHeap Runs

/-- `std::error_code` -/
structure ErrorCode where
  category : String
  value : Int32
  deriving DecidableEq, Repr

/-- `std::errc::timed_out` -/
def timedOut : ErrorCode := ⟨"generic", 110⟩

/-- `__promise_shared`, but for the value and the functions. -/
structure Shared where
  resolved : Bool
  rejected : Bool
  err : ErrorCode
  timer : Option Nat
  deriving DecidableEq, Repr

/-- The `uv_event` of a timer: `m_active`, whether libuv's timer runs, whether its handle is being closed, and
the copy of the promise in `m_callback`. -/
structure Timer where
  active : Bool
  running : Bool
  closing : Bool
  callback : Option Nat
  deriving DecidableEq, Repr

/-- A function that a promise was given and that a member of the object in the slot has called, the function of
`finally`, and a call of `on_timer`. -/
inductive Frame
  | settle (slot : Nat)
  | finally
  | timer (event : Nat)
  deriving DecidableEq, Repr

/-- `vars` are the promises of the program. -/
structure State where
  heap : RefHeap Unit Shared
  events : Nat → Option Timer
  nextEvent : Nat
  frames : List Frame
  vars : List Nat

/-- What goes wrong: the program or libuv does not do this, a promise is without a block, a block is freed, a
timer is freed, or a handle is closed again. -/
inductive Fault
  | gone
  | null
  | dangling
  | freed
  | closed
  deriving DecidableEq, Repr

def create : State := ⟨RefHeap.empty, fun _ => none, 0, [], []⟩

def setShared (s : State) (b : Nat) (t : Shared) : State := { s with heap := s.heap.retag b t }

def setEvent (s : State) (e : Nat) (ev : Option Timer) : State :=
  { s with events := Function.update s.events e ev }

/-! ## `runloop` -/

/-- `runloop::cancel`, of a timer -/
def cancel (s : State) (e : Nat) : Except Fault State :=
  match s.events e with
  | none => .error .freed
  | some ev =>
    if ev.active then
      if ev.closing then .error .closed
      else .ok (setEvent s e (some { ev with running := false, closing := true }))
    else .ok s

/-- `runloop::create`, where `uv_timer_init` may fail. -/
def createTimer (s : State) (ok : Bool) : Option Nat × State :=
  if ok then
    (some s.nextEvent, { setEvent s s.nextEvent (some ⟨false, false, false, none⟩) with nextEvent := s.nextEvent + 1 })
  else (none, s)

/-! ## `promise` -/

/-- `cancel_timer` -/
def cancelTimer (s : State) (i : Nat) : Except Fault State :=
  match s.heap.blockOf i with
  | none => .ok s
  | some b =>
    match s.heap.tagOf b with
    | none => .error .dangling
    | some t =>
      match t.timer with
      | none => .ok s
      | some e => do
        let s ← cancel s e
        .ok (setShared s b { t with timer := none })

/-- `unshare` -/
def unshare (s : State) (i : Nat) : Except Fault State :=
  match s.heap.bufs i with
  | none => .ok s
  | some k =>
    match s.heap.blks k.blk with
    | none => .error .dangling
    | some B =>
      if B.refs = 1 then do
        let s ← cancelTimer s i
        .ok { s with heap := s.heap.detach i }
      else .ok { s with heap := s.heap.release k.blk }

/-- `copy` -/
def copy (s : State) (i j : Nat) : Except Fault State := do
  let s ← unshare s i
  .ok { s with heap := s.heap.shareFrom i j }

/-- `move` -/
def move (s : State) (i j : Nat) : Except Fault State := do
  let s ← unshare s i
  .ok { s with heap := s.heap.transfer i j }

/-- `~promise` -/
def destroy (s : State) (i : Nat) : Except Fault State := do
  let s ← unshare s i
  .ok { s with heap := s.heap.setBuf i none }

/-- What the constructor makes, but for the timer. -/
def unsettled (timer : Option Nat) : Shared := ⟨false, false, ⟨"system", 0⟩, timer⟩

/-- `reset`, with what the timer of the new block holds. -/
def reset (s : State) (i : Nat) (junk : Option Nat) : Except Fault State := do
  let s ← unshare s i
  .ok { s with heap := s.heap.attach i [] (unsettled junk) }

/-- A new object in a slot of its own. -/
def allocate (s : State) : Nat × State := (s.heap.slots, { s with heap := s.heap.push })

/-- `runloop::schedule` with a function that keeps the promise in slot `c`: the function that the timer had
goes, and `uv_timer_start` refuses a handle that is being closed. -/
def schedule (s : State) (e : Option Nat) (c : Nat) : Except Fault State :=
  match e with
  | none => destroy s c
  | some e =>
    match s.events e with
    | none => .error .freed
    | some ev => do
      let s ← match ev.callback with
        | none => .ok s
        | some d => destroy s d
      .ok (setEvent s e (some { ev with active := true, running := !ev.closing, callback := some c }))

/-- `arm_timer` -/
def armTimer (s : State) (i : Nat) (ok : Bool) : Except Fault State := do
  let s ← cancelTimer s i
  match s.heap.blockOf i with
  | none => .ok s
  | some b =>
    match s.heap.tagOf b with
    | none => .error .dangling
    | some t =>
      let (e, s) := createTimer s ok
      let s := setShared s b { t with timer := e }
      let (c, s) := allocate s
      schedule { s with heap := s.heap.shareFrom c i } e c

/-- `is_finished` -/
def Shared.finished (t : Shared) : Bool := t.resolved || t.rejected

def isFinished (s : State) (i : Nat) : Bool :=
  match s.heap.blockOf i with
  | none => false
  | some b => ((s.heap.tagOf b).map Shared.finished).getD false

/-- `resolve` and `reject`; `called` is whether the promise was given a function for it. -/
def settle (s : State) (i : Nat) (outcome : Shared → Shared) (called : Bool) : Except Fault State :=
  match s.heap.blockOf i with
  | none => .ok s
  | some b =>
    match s.heap.tagOf b with
    | none => .error .dangling
    | some t =>
      if t.finished then .ok s
      else
        let s := setShared s b (outcome t)
        .ok (if called then { s with frames := .settle i :: s.frames } else s)

def resolve (s : State) (i : Nat) (called : Bool) : Except Fault State :=
  settle s i (fun t => { t with resolved := true }) called

def reject (s : State) (i : Nat) (err : ErrorCode) (called : Bool) : Except Fault State :=
  settle s i (fun t => { t with err := err, rejected := true }) called

/-- `then`, `catcher` and `finally` call the function at once when the promise is finished. -/
def direct (s : State) (i : Nat) : State :=
  if isFinished s i then { s with frames := .settle i :: s.frames } else s

/-- `on_timer` goes on when the function of the timer is over: it reads `m_repeat`, which is set. -/
def unwind (s : State) : Except Fault State :=
  match s.frames with
  | .timer e :: fs => if s.events e = none then .error .freed else .ok { s with frames := fs }
  | _ => .ok s

/-- A function returns; `last` is whether there is one of `finally`. -/
def returns (s : State) (last : Bool) : Except Fault State :=
  match s.frames with
  | .settle i :: fs =>
    -- the block is looked at again, for the other function and that of `finally`
    match s.heap.blockOf i with
    | none => .error .null
    | some b =>
      if s.heap.tagOf b = none then .error .dangling
      else if last then .ok { s with frames := .finally :: fs }
      else unwind { s with frames := fs }
  | .finally :: fs => unwind { s with frames := fs }
  | _ => .error .gone

/-- `on_timer`, and the function of the timer. -/
def onTimer (s : State) (e : Nat) (called : Bool) : Except Fault State :=
  match s.frames, s.events e with
  | [], some ev =>
    if ev.running then
      match ev.callback with
      | none => .error .null
      | some c => do
        let s ← cancelTimer { s with frames := [.timer e] } c
        let s ← if isFinished s c then .ok s else reject s c timedOut called
        match s.frames with
        | .timer _ :: _ => unwind s
        | _ => .ok s
    else .error .gone
  | _, _ => .error .gone

/-- What libuv calls when the handle is closed: the timer is freed. -/
def onClose (s : State) (e : Nat) : Except Fault State :=
  match s.frames, s.events e with
  | [], some ev =>
    if ev.closing then do
      let s ← match ev.callback with
        | none => .ok s
        | some c => destroy s c
      .ok (setEvent s e none)
    else .error .gone
  | _, _ => .error .gone

/-! ## Runs -/

inductive Act
  | declare
  | copyConstruct (j : Nat)
  | moveConstruct (j : Nat)
  | assign (i j : Nat)
  | moveAssign (i j : Nat)
  | destroy (i : Nat)
  | resolve (i : Nat) (called : Bool)
  | reject (i : Nat) (err : ErrorCode) (called : Bool)
  | direct (i : Nat)
  | reset (i : Nat) (junk : Option Nat)
  | timeout (i : Nat) (ok : Bool)
  | returns (last : Bool)
  | onTimer (e : Nat) (called : Bool)
  | onClose (e : Nat)
  deriving DecidableEq, Repr

/-- A promise of the program that no function runs for. -/
def State.Idle (s : State) (i : Nat) : Prop := i ∈ s.vars ∧ .settle i ∉ s.frames

instance (s : State) (i : Nat) : Decidable (s.Idle i) := inferInstanceAs (Decidable (_ ∧ _))

def newVar (s : State) (i : Nat) : State := { s with vars := i :: s.vars }

def act (s : State) : Act → Except Fault State
  | .declare =>
    let (i, s) := allocate s
    .ok (newVar { s with heap := s.heap.attach i [] (unsettled none) } i)
  | .copyConstruct j =>
    if j ∈ s.vars then
      let (i, s) := allocate s
      .ok (newVar { s with heap := s.heap.shareFrom i j } i)
    else .error .gone
  | .moveConstruct j =>
    if s.Idle j then
      let (i, s) := allocate s
      .ok (newVar { s with heap := s.heap.transfer i j } i)
    else .error .gone
  | .assign i j => if s.Idle i ∧ j ∈ s.vars then copy s i j else .error .gone
  | .moveAssign i j => if s.Idle i ∧ s.Idle j then move s i j else .error .gone
  | .destroy i =>
    if s.Idle i then do
      let s ← destroy s i
      .ok { s with vars := s.vars.erase i }
    else .error .gone
  | .resolve i called => if i ∈ s.vars then resolve s i called else .error .gone
  | .reject i err called => if i ∈ s.vars then reject s i err called else .error .gone
  | .direct i => if i ∈ s.vars then .ok (direct s i) else .error .gone
  | .reset i junk => if s.Idle i then reset s i junk else .error .gone
  | .timeout i ok =>
    if i ∈ s.vars then do
      let s ← armTimer s i ok
      let (j, s) := allocate s
      .ok (newVar { s with heap := s.heap.shareFrom j i } j)
    else .error .gone
  | .returns last => returns s last
  | .onTimer e called => onTimer s e called
  | .onClose e => onClose s e

def step (s : State) (a : Act) : Option State := (act s a).toOption

end Nodeoze.Event.Timeouts
