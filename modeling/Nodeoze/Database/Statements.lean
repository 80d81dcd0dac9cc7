import Nodeoze.Lib.Runs
import Nodeoze.Lib.Tokens
import Mathlib.Data.List.Nodup

/-!
# The statements of a database

A `database::statement` is a handle on a counted block, which holds the `sqlite3_stmt`; the last handle
that goes finalizes it.  The clients hold handles, and so does the database: in
`m_prepared_statement_map`, by the text of the statement, and in `m_prepared_statements`.
`database::prepare` with a function calls the function with the statement of the map, or with a new one
while an earlier call of a function with that statement has not returned.

A run takes the clients' and the database's operations in any order, those of a function between its call
and its return.  What sqlite answers is part of an operation.  A function neither assigns to the statement
that it is called with nor moves from it.

`reentrant` is not set when a block is made; `junk` is what it is then.
-/

namespace Nodeoze.Database.Statements

open RefHeap Runs

/-- `statement::shared`, where it holds an `sqlite3_stmt` or nothing. -/
structure Shared where
  stmt : Option Nat
  finalize : Bool
  reentrant : Bool
  err : Int32
  deriving DecidableEq, Repr

/-- A function that `prepare` has called, with the entry of the map or with a statement of its own. -/
inductive Frame
  | tracked (slot : Nat)
  | transient (slot : Nat)
  deriving DecidableEq, Repr

/-- `vars` are the handles of the clients; `stmts` are the statements that are not finalized, each with
its connection. -/
structure State where
  heap : RefHeap Unit Shared
  stmts : Nat → Option Nat
  nextStmt : Nat
  db : Option Nat
  nextDb : Nat
  err : Int32
  map : List (String × Nat)
  prepared : List Nat
  frames : List Frame
  vars : List Nat

/-- What goes wrong: there is no such object, a handle is without a block, a block is freed, sqlite is
given a statement that is finalized, or no connection. -/
inductive Fault
  | gone
  | null
  | dangling
  | misuse
  | noConnection
  deriving DecidableEq, Repr

/-- `std::errc::invalid_argument` -/
def EINVAL : Int32 := 22

def SQLITE_INTERNAL : Int32 := 2

def SQLITE_BUSY : Int32 := 5

def SQLITE_SCHEMA : Int32 := 17

def SQLITE_MISUSE : Int32 := 21

def SQLITE_ROW : Int32 := 100

def SQLITE_DONE : Int32 := 101

def create : State := ⟨RefHeap.empty, fun _ => none, 0, none, 0, 0, [], [], [], []⟩

/-! ## sqlite -/

/-- What sqlite answers to `sqlite3_prepare_v2`; a text without a statement is no error. -/
structure Compiled where
  code : Int32
  blank : Bool
  deriving DecidableEq, Repr

/-- `sqlite3_prepare_v2` -/
def prepareV2 (s : State) (r : Compiled) : Int32 × Option Nat × State :=
  match s.db with
  | none => (SQLITE_MISUSE, none, s)
  | some c =>
    if r.code ≠ 0 then (r.code, none, s)
    else if r.blank then (0, none, s)
    else (0, some s.nextStmt,
      { s with stmts := Function.update s.stmts s.nextStmt (some c), nextStmt := s.nextStmt + 1 })

/-- `sqlite3_finalize`, of which a null statement is none. -/
def sqlite3Finalize (s : State) : Option Nat → Except Fault State
  | none => .ok s
  | some n =>
    if s.stmts n = none then .error .misuse
    else .ok { s with stmts := Function.update s.stmts n none }

/-- `sqlite3_step`, `sqlite3_reset` and `sqlite3_clear_bindings` need a statement that is not finalized. -/
def sqlite3Use (s : State) (n : Nat) : Except Fault Unit :=
  if s.stmts n = none then .error .misuse else .ok ()

/-- `sqlite3_close` is refused as long as a statement of the connection is not finalized. -/
def sqlite3Close (s : State) (c : Nat) : Int32 :=
  if (List.range s.nextStmt).any (fun n => s.stmts n == some c) then SQLITE_BUSY else 0

/-! ## `database::statement` -/

section

variable (junk : Nat → Bool)

/-- A new object in a slot of its own. -/
def allocate (s : State) : Nat × State := (s.heap.slots, { s with heap := s.heap.push })

/-- `statement::statement( stmt, finalize )` -/
def construct (s : State) (stmt : Option Nat) (finalize : Bool) (err : Int32) : Nat × State :=
  let (i, s) := allocate s
  (i, { s with heap := s.heap.attach i [] ⟨stmt, finalize, junk s.heap.next, err⟩ })

/-- `statement( stmt )` if there is no error, `statement( err )` if there is one. -/
def constructResult (s : State) (code : Int32) (stmt : Option Nat) : Nat × State :=
  if code = 0 then construct junk s stmt true 0 else construct junk s none false code

end

/-- `*m_shared` -/
def deref (s : State) (i : Nat) : Except Fault (Nat × Shared) :=
  match s.heap.blockOf i with
  | none => .error .null
  | some b =>
    match s.heap.tagOf b with
    | none => .error .dangling
    | some t => .ok (b, t)

def setShared (s : State) (b : Nat) (t : Shared) : State := { s with heap := s.heap.retag b t }

/-- `unshare` -/
def unshare (s : State) (i : Nat) : Except Fault State :=
  match s.heap.bufs i with
  | none => .ok s
  | some k =>
    match s.heap.blks k.blk with
    | none => .error .dangling
    | some B =>
      if B.refs = 1 then do
        let s ← if B.tag.finalize then sqlite3Finalize s B.tag.stmt else .ok s
        .ok { s with heap := s.heap.detach i }
      else .ok { s with heap := s.heap.release k.blk }

/-- `share` -/
def share (s : State) (i j : Nat) : State :=
  match s.heap.bufs j with
  | none => { s with heap := s.heap.setBuf i none }
  | some k => { s with heap := s.heap.share i k }

/-- `copy` -/
def copy (s : State) (i j : Nat) : Except Fault State := do
  let s ← unshare s i
  .ok (share s i j)

/-- `move` -/
def move (s : State) (i j : Nat) : Except Fault State := do
  let s ← unshare s i
  .ok { s with heap := s.heap.transfer i j }

/-- `~statement` -/
def destroy (s : State) (i : Nat) : Except Fault State := do
  let s ← unshare s i
  .ok { s with heap := s.heap.setBuf i none }

/-- `finalize` -/
def finalize (s : State) (i : Nat) : Except Fault State := do
  let (b, t) ← deref s i
  match t.stmt with
  | none => .ok s
  | some n =>
    let s ← sqlite3Finalize s (some n)
    .ok (setShared s b { t with stmt := none })

/-- `reset_prepared` -/
def resetPrepared (s : State) (i : Nat) : Except Fault (Int32 × State) := do
  let (b, t) ← deref s i
  match t.stmt with
  | none => .ok (SQLITE_INTERNAL, setShared s b { t with err := SQLITE_INTERNAL })
  | some n =>
    sqlite3Use s n
    .ok (0, setShared s b { t with err := 0 })

/-- `last_error`: an error is told once, and the statement is reset. -/
def lastError (s : State) (i : Nat) : Except Fault (Int32 × State) := do
  let (_, t) ← deref s i
  if t.err = 0 then .ok (0, s)
  else
    let (_, s) ← resetPrepared s i
    .ok (t.err, s)

/-- `step`, with what `sqlite3_step` answers. -/
def stepStatement (s : State) (i : Nat) (code : Int32) : Except Fault (Bool × State) := do
  let (b, t) ← deref s i
  match t.stmt with
  | none => .ok (false, setShared s b { t with err := SQLITE_INTERNAL })
  | some n =>
    sqlite3Use s n
    if code = SQLITE_ROW then .ok (true, setShared s b { t with err := 0 })
    else if code = 0 ∨ code = SQLITE_DONE then .ok (false, setShared s b { t with err := 0 })
    else .ok (false, setShared s b { t with err := code })

/-- The loop of `exec_prepared`: `sqlite3_step` is tried again, at most ten times in all, while it answers
that the schema has changed. -/
def stepAgain (codes : Nat → Int32) : Nat → Nat → Int32
  | 0, count => codes count
  | fuel + 1, count => if codes count = SQLITE_SCHEMA then stepAgain codes fuel (count + 1) else codes count

/-- `exec_prepared` -/
def execPrepared (s : State) (i : Nat) (codes : Nat → Int32) : Except Fault (Int32 × State) := do
  let (b, t) ← deref s i
  match t.stmt with
  | none => .ok (SQLITE_INTERNAL, setShared s b { t with err := SQLITE_INTERNAL })
  | some n =>
    sqlite3Use s n
    let result := stepAgain codes 9 0
    let err := if result = SQLITE_DONE ∨ result = 0 ∨ result = SQLITE_ROW then 0 else result
    .ok (err, setShared s b { t with err := err })

/-- `reentrant` -/
def reentrant (s : State) (i : Nat) : Bool :=
  match s.heap.blockOf i with
  | none => false
  | some b => ((s.heap.tagOf b).map Shared.reentrant).getD false

/-- `set_reentrant` -/
def setReentrant (s : State) (i : Nat) (val : Bool) : State :=
  match s.heap.blockOf i with
  | none => s
  | some b =>
    match s.heap.tagOf b with
    | none => s
    | some t => setShared s b { t with reentrant := val }

/-! ## `database` -/

def State.slots (s : State) : List Nat := s.map.map Prod.snd

def destroyAll (s : State) : List Nat → Except Fault State
  | [] => .ok s
  | i :: is => do
    let s ← destroy s i
    destroyAll s is

def resetAll (s : State) : List Nat → Except Fault State
  | [] => .ok s
  | i :: is => do
    let (_, s) ← resetPrepared s i
    resetAll s is

/-- `reset_all_prepared` -/
def resetAllPrepared (s : State) : Except Fault State := do
  let s ← destroyAll s s.slots
  resetAll { s with map := [] } s.prepared

/-- `sqlite3_open` makes a connection, but when there is no memory, whatever it answers. -/
structure Opened where
  code : Int32
  allocated : Bool
  deriving DecidableEq, Repr

def sqlite3Open (s : State) (r : Opened) : State :=
  if r.allocated then { s with db := some s.nextDb, nextDb := s.nextDb + 1 } else { s with db := none }

/-- `open`, with what is answered to the pragma. -/
def openDatabase (s : State) (name : String) (r : Opened) (pragma : Int32) : Except Fault (Int32 × State) :=
  if name = "" then .ok (s.err, s)
  else do
    let s ← resetAllPrepared s
    let s := sqlite3Open s r
    let err := if r.code = 0 then pragma else r.code
    .ok (err, { s with err := err })

/-- `close` -/
def close (s : State) : Except Fault (Int32 × State) := do
  let s ← resetAllPrepared { s with err := 0 }
  match s.db with
  | none => .ok (0, s)
  | some c =>
    let err := sqlite3Close s c
    if err = 0 then .ok (0, { s with db := none }) else .ok (err, { s with err := err })

/-- `restore`, with what is answered to the statement of the hook, if there is one. -/
def restore (s : State) (named : Bool) (r : Opened) (hook : Option Int32) : Except Fault (Int32 × State) :=
  match s.db with
  | none => .error .noConnection
  | some c =>
    if named then
      let ret := sqlite3Close s c
      if ret ≠ 0 then .ok (ret, s)
      else
        let s := sqlite3Open s r
        if r.code ≠ 0 then .ok (r.code, s) else .ok (hook.getD 0, s)
    else .ok (EINVAL, s)

section

variable (junk : Nat → Bool)

/-- `select`; the client gets the handle. -/
def select (s : State) (r : Compiled) : State :=
  let (code, stmt, s) := prepareV2 s r
  let (i, s) := constructResult junk s code stmt
  { s with vars := i :: s.vars }

/-- `transient_prepared_statement`, and `prepare` with a text: the slot of what is returned. -/
def transientPreparedStatement (s : State) (r : Compiled) : Nat × State :=
  let (code, stmt, s) := prepareV2 s r
  let s := { s with err := code }
  let (i, s) := constructResult junk s code stmt
  if code = 0 then
    let (j, s) := allocate s
    let s := share s j i
    (i, { s with prepared := s.prepared ++ [j] })
  else (i, s)

def prepare (s : State) (r : Compiled) : State :=
  let (i, s) := transientPreparedStatement junk s r
  { s with vars := i :: s.vars }

/-- `tracked_prepared_statement` -/
def trackedPreparedStatement (s : State) (str : String) (r : Compiled) : Option Nat × State :=
  let (code, stmt, s) := prepareV2 s r
  if code = 0 then
    let (i, s) := construct junk s stmt true 0
    (some i, { s with map := (str, i) :: s.map })
  else (none, s)

/-- `prepare` with a function, until the function is called; without a statement it is not. -/
def call (s : State) (str : String) (r r' : Compiled) : State :=
  let (found, s) :=
    match s.map.lookup str with
    | some i => (some i, s)
    | none => trackedPreparedStatement junk s str r
  match found with
  | none => s
  | some i =>
    if reentrant s i then
      let (j, s) := transientPreparedStatement junk s r'
      { s with frames := .transient j :: s.frames }
    else
      let s := setReentrant s i true
      { s with frames := .tracked i :: s.frames }

end

/-- The function returns. -/
def returns (s : State) : Except Fault State :=
  match s.frames with
  | [] => .error .gone
  | .tracked i :: frames =>
    if i ∈ s.slots then do
      let (_, s) ← resetPrepared (setReentrant s i false) i
      .ok { s with frames := frames }
    else .error .gone
  | .transient i :: frames => destroy { s with frames := frames } i

/-- The function throws. -/
def throws (s : State) : Except Fault State :=
  match s.frames with
  | [] => .error .gone
  | .tracked _ :: frames => .ok { s with frames := frames }
  | .transient i :: frames => destroy { s with frames := frames } i

/-! ## Runs -/

inductive Act
  | declare
  | copyConstruct (j : Nat)
  | moveConstruct (j : Nat)
  | assign (i j : Nat)
  | moveAssign (i j : Nat)
  | destroy (i : Nat)
  | finalize (i : Nat)
  | step (i : Nat) (code : Int32)
  | exec (i : Nat) (codes : Nat → Int32)
  | reset (i : Nat)
  | lastError (i : Nat)
  | select (r : Compiled)
  | prepare (r : Compiled)
  | call (str : String) (r r' : Compiled)
  | returns
  | throws
  | openDatabase (name : String) (r : Opened) (pragma : Int32)
  | close
  | restore (named : Bool) (r : Opened) (hook : Option Int32)

/-- The statement that a function was called with, while it is there. -/
def State.handed (s : State) : Frame → Option Nat
  | .tracked i => if i ∈ s.slots then some i else none
  | .transient i => some i

/-- What the clients can name: their handles and the statements of the functions that run. -/
def State.Visible (s : State) (i : Nat) : Prop := i ∈ s.vars ∨ i ∈ s.frames.filterMap s.handed

instance (s : State) (i : Nat) : Decidable (s.Visible i) := inferInstanceAs (Decidable (_ ∨ _))

def newVar (s : State) (i : Nat) : State := { s with vars := i :: s.vars }

def act (junk : Nat → Bool) (s : State) : Act → Except Fault State
  | .declare =>
    let (i, s) := construct junk s none true 0
    .ok (newVar s i)
  | .copyConstruct j =>
    if s.Visible j then
      let (i, s) := allocate s
      .ok (newVar (share s i j) i)
    else .error .gone
  | .moveConstruct j =>
    if j ∈ s.vars then
      let (i, s) := allocate s
      .ok (newVar { s with heap := s.heap.transfer i j } i)
    else .error .gone
  | .assign i j => if i ∈ s.vars ∧ s.Visible j then copy s i j else .error .gone
  | .moveAssign i j => if i ∈ s.vars ∧ j ∈ s.vars then move s i j else .error .gone
  | .destroy i =>
    if i ∈ s.vars then do
      let s ← destroy s i
      .ok { s with vars := s.vars.erase i }
    else .error .gone
  | .finalize i => if s.Visible i then finalize s i else .error .gone
  | .step i code => if s.Visible i then Prod.snd <$> stepStatement s i code else .error .gone
  | .exec i codes => if s.Visible i then Prod.snd <$> execPrepared s i codes else .error .gone
  | .reset i => if s.Visible i then Prod.snd <$> resetPrepared s i else .error .gone
  | .lastError i => if s.Visible i then Prod.snd <$> lastError s i else .error .gone
  | .select r => .ok (select junk s r)
  | .prepare r => .ok (prepare junk s r)
  | .call str r r' => .ok (call junk s str r r')
  | .returns => returns s
  | .throws => throws s
  | .openDatabase name r pragma => Prod.snd <$> openDatabase s name r pragma
  | .close => Prod.snd <$> close s
  | .restore named r hook => Prod.snd <$> restore s named r hook

def step (junk : Nat → Bool) (s : State) (a : Act) : Option State := (act junk s a).toOption

end Nodeoze.Database.Statements
