import Mathlib.Algebra.Order.Ring.Int
import Mathlib.Logic.Function.Basic
import Nodeoze.Event.Promise
import Nodeoze.Lib.Runs

/-!
# Promises that call each other

The promises of a program are a heap: what `then` returns is a promise that the callbacks of another one
settle, and so are the results of `all`, `any` and `race`.  A function that is called may call `then` or
settle a promise before it returns, so that the library's calls are kept on a stack, and each step does
what the frame on top is at.  The program acts when the stack is empty or a function of its own is on
top.  `timeout` is a settlement by the program.

The promises and what is attached to them are numbered from one counter: the promise that `then` returns
has the number of the two callbacks that it attaches.  The lists `settled`, `calls`, `log`, `returned`
and `offered` record what has happened and are not part of the program.
-/

namespace Nodeoze.Event

/-! ## Callbacks and outcomes -/

namespace Promise.Outcome

variable {T Err : Type}

deriving instance DecidableEq for Outcome

def isRejected : Outcome T Err → Bool
  | .resolved _ => false
  | .rejected _ => true

end Promise.Outcome

namespace Promises

open Promise (Outcome)

/-- What the function that is given to `then` returns, which is what selects `really_then`. -/
inductive Kind
  | nothing
  | value
  | promise (isVoid : Bool)
  deriving DecidableEq, Repr

/-- What is stored in a promise: the functions of the program, and those that `really_then`, `all`, `any`
and `race` make.  `n` is the promise that was returned, `m` the number of the inner `then`. -/
inductive Callback
  | user (kind : Kind) (n : Nat)
  | reject (n : Nat)
  | catcher (n : Nat)
  | final (n : Nat)
  /-- `ret.reject( err )` -/
  | forward (n : Nat)
  /-- `ret.resolve( std::move( answer ) )`, on the promise that the function has returned -/
  | pass (m n : Nat)
  | passError (m n : Nat)
  /-- of the promise at `index` -/
  | gather (m c index : Nat)
  | gatherError (m c index : Nat)
  deriving DecidableEq, Repr

namespace Callback

/-- Stored in `m_shared->reject`. -/
def onReject : Callback → Bool
  | .reject _ | .catcher _ | .forward _ | .passError _ _ | .gatherError _ _ _ => true
  | .user _ _ | .final _ | .pass _ _ | .gather _ _ _ => false

def number : Callback → Nat
  | .user _ n | .reject n | .catcher n | .final n | .forward n => n
  | .pass m _ | .passError m _ | .gather m _ _ | .gatherError m _ _ => m

/-- The promise that it settles. -/
def target : Callback → Option Nat
  | .user _ n | .forward n | .pass _ n | .passError _ n => some n
  | .gather _ c _ | .gatherError _ c _ => some c
  | .reject _ | .catcher _ | .final _ => none

end Callback

/-- What `really_then` stores for errors: a function that returns something has the reject function of
`then` forgotten, `nunused( reject_func )`. -/
def Kind.rejectSlot (n : Nat) (hasReject : Bool) : Kind → Option Callback
  | .nothing => if hasReject then some (.reject n) else none
  | .value | .promise _ => some (.forward n)

/-- The values that the library makes of its own. -/
structure Values (V Err : Type) where
  /-- what a promise without value is resolved with -/
  void : V
  /-- `T val` -/
  blank : V
  /-- `deque< T >` -/
  pack : List V → V
  noError : Err
  invalidArgument : Err

variable {V Err : Type}

/-- The settlement of a promise of `void` has no value. -/
def Values.norm (env : Values V Err) (isVoid : Bool) : Outcome V Err → Outcome V Err
  | .resolved v => .resolved (if isVoid then env.void else v)
  | .rejected e => .rejected e

/-! ## State -/

/-- `__promise_shared` of some type -/
structure Cell (V Err : Type) extends Promise.Shared Callback V Err where
  isVoid : Bool

namespace Cell

/-- `promise()` -/
def fresh (env : Values V Err) (isVoid : Bool) : Cell V Err :=
  { resolved := false, rejected := false, resolve := none, reject := none, finally_ := none,
    val := if isVoid then env.void else env.blank, err := env.noError, isVoid := isVoid }

def slot (c : Cell V Err) (onReject : Bool) : Option Callback :=
  if onReject then c.reject else c.resolve

/-- What `resolve` and `reject` write before they call. -/
def finish (c : Cell V Err) : Outcome V Err → Cell V Err
  | .resolved v =>
    match c.resolve with
    | some _ => { c with resolved := true, resolve := none }
    | none => { c with resolved := true, val := v }
  | .rejected e =>
    match c.reject with
    | some _ => { c with rejected := true, err := e, reject := none }
    | none => { c with rejected := true, err := e }

end Cell

inductive Mode
  | all
  | race
  | any
  deriving DecidableEq, Repr

/-- What the closures of `all`, `any` and `race` share. -/
structure Gather (V : Type) where
  mode : Mode
  isVoid : Bool
  total : Nat
  count : Nat
  result : List V

namespace Gather

/-- `( *count )++` of a `std::uint32_t` -/
def counted (g : Gather V) : Gather V := { g with count := (g.count + 1) % 2 ^ 32 }

/-- `is_finished` -/
def complete (g : Gather V) : Bool := g.count == g.total

/-- The closures of `all`, `any` and `race`: what they do to `ret`. -/
def hear (env : Values V Err) (g : Gather V) (finished : Bool) (index : Nat) :
    Outcome V Err → Gather V × Option (Outcome V Err)
  | .resolved v =>
    match g.mode with
    | .all =>
      let g := g.counted
      if finished then (g, none)
      else if g.isVoid then (g, if g.complete then some (.resolved env.void) else none)
      else
        let g := { g with result := g.result.set index v }
        (g, if g.complete then some (.resolved (env.pack g.result)) else none)
    | .race => (g, if finished then none else some (.resolved v))
    | .any => (g.counted, if finished then none else some (.resolved v))
  | .rejected e =>
    match g.mode with
    | .all => (g.counted, if finished then none else some (.rejected e))
    | .race => (g, if finished then none else some (.rejected e))
    | .any =>
      let g := g.counted
      (g, if finished then none else if g.complete then some (.rejected e) else none)

end Gather

/-- How `all`, `any` and `race` settle `ret` when there are no promises. -/
def Mode.ofEmpty (env : Values V Err) : Mode → Outcome V Err
  | .all => .resolved (env.pack [])
  | .race | .any => .rejected env.invalidArgument

inductive Frame (V Err : Type)
  /-- a function that is about to be called -/
  | call (k : Callback) (o : Outcome V Err)
  | final (k : Callback)
  /-- a function of the program -/
  | running (job : Option (Kind × Nat))
  /-- the rest of `resolve` or `reject` -/
  | after (p : Nat) (rejected : Bool)
  /-- the rest of `maybe_direct_resolve_reject`, which calls what is stored in the promise where it is -/
  | direct (p : Nat)
  /-- the loop of `all`, `any` and `race` -/
  | register (c index : Nat) (todo : List Nat)

def Frame.isDirect (p : Nat) : Frame V Err → Bool
  | .direct q => q == p
  | _ => false

/-- What a function of the program returns. -/
inductive Result (V : Type)
  | nothing
  | value (v : V)
  | promise (q : Nat)
  deriving DecidableEq

structure State (V Err : Type) where
  cells : Nat → Cell V Err
  gathers : Nat → Option (Gather V)
  promises : List Nat
  next : Nat
  stack : List (Frame V Err)
  /-- the settlements, in order -/
  settled : List (Nat × Outcome V Err)
  /-- the functions that were called, in order -/
  calls : List (Callback × Outcome V Err)
  /-- what was attached to which promise -/
  log : List (Nat × Callback)
  /-- what the functions have returned -/
  returned : List (Kind × Nat × Result V)
  /-- the functions for errors that were given to `then`, with its promise, kind and number -/
  offered : List (Nat × Kind × Nat)

inductive Act (V Err : Type)
  | create (isVoid : Bool)
  /-- `leaves` is what the function that is called at once leaves of the value that it may move. -/
  | then_ (p : Nat) (kind : Kind) (hasReject : Bool) (leaves : V)
  | catcher (p : Nat)
  | finally_ (p : Nat)
  | settle (p : Nat) (o : Outcome V Err)
  | gather (mode : Mode) (isVoid : Bool) (inputs : List Nat)
  /-- the function on top returns -/
  | ret (result : Result V) (leaves : V)
  /-- the library goes on -/
  | go (leaves : V)

/-- What a step comes to in the end. -/
inductive Effect (V Err : Type)
  | idle
  | settle (p : Nat) (o : Outcome V Err)
  | attach (p : Nat) (a : Callback) (b : Option Callback) (leaves : V)
  | catch_ (p : Nat) (k : Callback)

namespace State

def init (env : Values V Err) : State V Err :=
  { cells := fun _ => .fresh env false, gathers := fun _ => none, promises := [], next := 0, stack := [],
    settled := [], calls := [], log := [], returned := [], offered := [] }

/-! ## Operations -/

def setCell (s : State V Err) (p : Nat) (c : Cell V Err) : State V Err :=
  { s with cells := Function.update s.cells p c }

def push (s : State V Err) (f : Frame V Err) : State V Err := { s with stack := f :: s.stack }

/-- Functions are called, and what is below goes on afterwards. -/
def enter (s : State V Err) (calls : List (Callback × Outcome V Err)) (below : List (Frame V Err)) :
    State V Err :=
  { s with stack := calls.map (fun call => .call call.1 call.2) ++ below ++ s.stack,
           calls := s.calls ++ calls }

def number (s : State V Err) : State V Err := { s with next := s.next + 1 }

/-- `promise< T >()` -/
def alloc (env : Values V Err) (s : State V Err) (isVoid : Bool) : State V Err :=
  { s.setCell s.next (.fresh env isVoid) with
    promises := s.promises ++ [s.next], next := s.next + 1 }

/-- `promise::resolve` and `promise::reject` -/
def settle (env : Values V Err) (s : State V Err) (p : Nat) (o : Outcome V Err) : State V Err :=
  let c := s.cells p
  if c.isFinished then s
  else
    let o := env.norm c.isVoid o
    let s := { s.setCell p (c.finish o) with settled := s.settled ++ [(p, o)] }
    match c.slot o.isRejected with
    | some k => s.enter [(k, o)] [.after p o.isRejected]
    | none => s

/-- The end of every `really_then`: both slots are written, and `maybe_direct_resolve_reject` calls what
it has just stored.  It is not defined what happens when a function is written over that is running. -/
def attachTo (s : State V Err) (p : Nat) (a : Callback) (b : Option Callback) (leaves : V) :
    Option (State V Err) :=
  if s.stack.any (Frame.isDirect p) then none
  else
    let c := { s.cells p with resolve := some a, reject := b }
    let s := { s with log := s.log ++ (p, a) :: b.toList.map fun b => (p, b) }
    if c.rejected then
      some ((s.setCell p c).enter (b.toList.map fun b => (b, .rejected c.err)) [.direct p])
    else if c.resolved then
      some ((s.setCell p { c with val := if c.isVoid then c.val else leaves }).enter
        [(a, .resolved c.val)] [.direct p])
    else some (s.setCell p c)

/-- `promise::catcher` -/
def doCatch (s : State V Err) (p : Nat) (k : Callback) : State V Err :=
  let c := s.cells p
  let s := { s with log := s.log ++ [(p, k)] }
  if c.isFinished then
    if c.rejected then s.enter [(k, .rejected c.err)] [] else s
  else s.setCell p { c with reject := some k }

/-- `promise::finally` -/
def doFinally (s : State V Err) (p : Nat) (k : Callback) : State V Err :=
  let c := s.cells p
  if c.isFinished then s.push (.final k) else s.setCell p { c with finally_ := some k }

/-- `if ( m_shared->finally )` -/
def takeFinally (s : State V Err) (p : Nat) : State V Err :=
  match (s.cells p).finally_ with
  | some k => (s.setCell p { s.cells p with finally_ := none }).push (.final k)
  | none => s

def perform (env : Values V Err) (s : State V Err) : Effect V Err → Option (State V Err)
  | .idle => some s
  | .settle p o => some (s.settle env p o)
  | .attach p a b leaves => s.attachTo p a b leaves
  | .catch_ p k => some (s.doCatch p k)

/-! ## Steps -/

/-- The program acts when nothing is on the stack or one of its own functions on top. -/
def userTurn (s : State V Err) : Bool :=
  match s.stack with
  | [] | .running _ :: _ => true
  | _ => false

def knows (s : State V Err) (p : Nat) : Bool := s.userTurn && s.promises.contains p

/-- The promise that `really_then` returns, if it makes one. -/
def promiseFor (env : Values V Err) (s : State V Err) : Kind → State V Err
  | .nothing => s.number
  | .value => s.alloc env false
  | .promise isVoid => s.alloc env isVoid

/-- `all`, `race` and `any` -/
def gather (env : Values V Err) (s : State V Err) (mode : Mode) (isVoid : Bool) (inputs : List Nat) :
    State V Err × Effect V Err :=
  let g : Gather V := ⟨mode, isVoid, inputs.length, 0, List.replicate inputs.length env.blank⟩
  let s' := { s.alloc env isVoid with gathers := Function.update s.gathers s.next (some g) }
  match inputs with
  | [] => (s', .settle s.next (mode.ofEmpty env))
  | _ :: _ => (s'.push (.register s.next 0 inputs), .idle)

/-- What `really_then` does with what its function returns; the stack is that below the function. -/
def giveBack (s : State V Err) (leaves : V) :
    Option (Kind × Nat) → Result V → Option (State V Err × Effect V Err)
  | none, .nothing => some (s, .idle)
  | some (.nothing, n), .nothing =>
    some ({ s with returned := s.returned ++ [(.nothing, n, .nothing)] }, .idle)
  | some (.value, n), .value v =>
    some ({ s with returned := s.returned ++ [(.value, n, .value v)] }, .settle n (.resolved v))
  | some (.promise isVoid, n), .promise q =>
    if s.promises.contains q && (s.cells q).isVoid == isVoid then
      some ({ s.number with returned := s.returned ++ [(.promise isVoid, n, .promise q)] },
        .attach q (.pass s.next n) (some (.passError s.next n)) leaves)
    else none
  | _, _ => none

/-- The body of a function that is called. -/
def invoke (env : Values V Err) (s : State V Err) (k : Callback) (o : Outcome V Err) :
    State V Err × Effect V Err :=
  match k with
  | .user kind n => (s.push (.running (some (kind, n))), .idle)
  | .reject _ | .catcher _ | .final _ => (s.push (.running none), .idle)
  | .forward n | .pass _ n | .passError _ n => (s, .settle n o)
  | .gather _ c index | .gatherError _ c index =>
    match s.gathers c with
    | none => (s, .idle)
    | some g =>
      let r := g.hear env (s.cells c).isFinished index o
      ({ s with gathers := Function.update s.gathers c (some r.1) }, r.2.elim .idle (.settle c))

/-- The counter of `all` is an `int`, which must not overflow. -/
def indexed (s : State V Err) (c index : Nat) : Bool :=
  (s.gathers c).all fun g => g.mode != .all || g.isVoid || decide (index < 2 ^ 31)

/-- The library goes on with the frame that was on top. -/
def resume (env : Values V Err) (s : State V Err) (leaves : V) :
    Frame V Err → Option (State V Err × Effect V Err)
  | .call k o => some (s.invoke env k o)
  | .final _ => some (s.push (.running none), .idle)
  | .running _ => none
  | .after p rejected =>
    let c := s.cells p
    let c := if rejected then { c with resolve := none } else { c with reject := none }
    some ((s.setCell p c).takeFinally p, .idle)
  | .direct p => some (if (s.cells p).isVoid then s.takeFinally p else s, .idle)
  | .register c index [] => if s.indexed c index then some (s, .idle) else none
  | .register c index (p :: todo) =>
    if s.indexed c index then
      some (s.number.push (.register c (index + 1) todo),
        .attach p (.gather s.next c index) (some (.gatherError s.next c index)) leaves)
    else none

/-- What a step does before it settles or attaches something. -/
def prepare (env : Values V Err) (s : State V Err) : Act V Err → Option (State V Err × Effect V Err)
  | .create isVoid => if s.userTurn then some (s.alloc env isVoid, .idle) else none
  | .then_ p kind hasReject leaves =>
    if s.knows p then
      some ({ s.promiseFor env kind with
          offered := if hasReject then s.offered ++ [(p, kind, s.next)] else s.offered },
        .attach p (.user kind s.next) (kind.rejectSlot s.next hasReject) leaves)
    else none
  | .catcher p => if s.knows p then some (s.number, .catch_ p (.catcher s.next)) else none
  | .finally_ p => if s.knows p then some (s.number.doFinally p (.final s.next), .idle) else none
  | .settle p o => if s.knows p then some (s, .settle p o) else none
  | .gather mode isVoid inputs =>
    if s.userTurn && inputs.all fun p => s.promises.contains p && (s.cells p).isVoid == isVoid then
      some (s.gather env mode isVoid inputs)
    else none
  | .ret result leaves =>
    match s.stack with
    | .running job :: stack => { s with stack := stack }.giveBack leaves job result
    | _ => none
  | .go leaves =>
    match s.stack with
    | f :: stack => { s with stack := stack }.resume env leaves f
    | [] => none

def step (env : Values V Err) (s : State V Err) (a : Act V Err) : Option (State V Err) :=
  (s.prepare env a).bind fun r => r.1.perform env r.2

end State

end Promises

end Nodeoze.Event
