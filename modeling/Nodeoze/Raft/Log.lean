import Nodeoze.Bstream.Obfilebuf
import Nodeoze.Raft.Recover

/-!
# The raft log

`raft::log` keeps the updates of the state machine in memory and in a file.  New frames go to the
end of the file; `prune_back` cuts the file where the first removed update starts, and
`prune_front` writes what remains to a temporary file and renames it.

The functions report an error code; a system call that fails ends the model's run instead, since
what the log is worth then is no subject here.  Asserts are compiled out.
-/

namespace Nodeoze.Raft

open Reader Bstream Posix

/-- The error codes that the functions of the log report. -/
inductive Code
  | invalidArgument
  | stateNotRecoverable
  | noSuchFileOrDirectory
  | fault (f : Fault)
  deriving DecidableEq, Repr

structure Log where
  self : UInt64
  state : ReplicantState
  logPathname : String
  logTempPathname : String
  os : Obfilebuf
  log : List StateMachineUpdate

/-- The stream functions that write one chunk. -/
def putChunk (os : Obfilebuf) : Chunk → Except Failure Obfilebuf
  | .byte b => os.put b
  | .num bs => os.putn bs
  | .raw bs => os.putn bs

def putAll : List Chunk → Obfilebuf → Except Failure Obfilebuf
  | [], os => pure os
  | t :: ts, os => do
    let os ← putChunk os t
    putAll ts os

/-- `m_os.position()` -/
def position (os : Obfilebuf) : Int64 := .ofNat (os.tell .current).1

/-- `write_frame`, after it has set the position of the frame. -/
def writeFrame (os : Obfilebuf) (f : Frame) (flush : Bool) : Except Failure Obfilebuf := do
  let os ← putAll f.filed os
  if flush then os.flush else pure os

namespace Log

/-- `log( id, log_pathname, log_temp_pathname )` -/
def create (id : UInt64) (logPathname logTempPathname : String) (world : World String) : Log :=
  ⟨id, .create id, logPathname, logTempPathname, Obfilebuf.create world .atBegin 16384, []⟩

def world (L : Log) : World String := L.os.dev.world

def setWorld (L : Log) (world : World String) : Log :=
  { L with os := { L.os with dev := { L.os.dev with world := world } } }

/-- `write_frame( m_state )` -/
def writeState (L : Log) : Except Failure Log := do
  let state := { L.state with pos := position L.os }
  let os ← writeFrame L.os (.replicantState state) true
  pure { L with state := state, os := os }

def removeTemp (L : Log) : Log :=
  if L.world.fileExists L.logTempPathname then L.setWorld (L.world.remove L.logTempPathname) else L

/-- `initialize( self, current_term, voted_for )` -/
def initialise (L : Log) (self currentTerm votedFor : UInt64) : Except Failure Log := do
  let L := { L with self := self, state := L.state.update currentTerm votedFor, log := [] }
  let L := L.removeTemp
  let os ← Obfilebuf.open_ L.os L.logPathname .truncate
  writeState { L with os := os }

/-- `junk` is what the uninitialised locals of `get_num` hold. -/
def recover (L : Log) (junk : Nat → Nat → UInt8) : Log × Option Code :=
  match L.world.disk.content L.logPathname with
  | none => (L, some .noSuchFileOrDirectory)
  | some file =>
    let (r, err) := recoverFile junk file ⟨L.state.clear L.self, L.log⟩
    ({ L with state := r.state, log := r.log }, err.map .fault)

def restart (L : Log) (junk : Nat → Nat → UInt8) (self : UInt64) :
    Except Failure (Log × Option Code) := do
  let L := { L with self := self, state := L.state.clear self, log := [] }
  match L.removeTemp.recover junk with
  | (L, some err) => pure (L, some err)
  | (L, none) => do
    let os ← Obfilebuf.open_ L.os L.logPathname .append
    let L ← writeState { L with os := os }
    pure (L, none)

def close (L : Log) : Except Failure Log := do
  let L ← writeState L
  let os ← Obfilebuf.close L.os
  pure { L with os := os }

def append (L : Log) (ep : StateMachineUpdate) : Except Failure Log := do
  let ep := { ep with pos := position L.os }
  let os ← writeFrame L.os (.stateMachineUpdate ep) true
  let os ← os.flush
  pure { L with os := os, log := L.log ++ [ep] }

def updateReplicantState (L : Log) (self currentTerm votedFor : UInt64) :
    Except Failure (Log × Option Code) :=
  match L.state.updateFrom ⟨-1, false, self, currentTerm, votedFor⟩ with
  | .error e => pure (L, some (.fault (.log e)))
  | .ok state =>
    if state.dirty then do
      let L ← writeState { L with state := state }
      pure ({ L with state := L.state.clean }, none)
    else pure ({ L with state := state }, none)

/-- `truncate( pos )` -/
def truncate (L : Log) (pos : Int64) : Except Failure Log := do
  let os ← Obfilebuf.seek L.os .begin pos.toInt
  let os ← Obfilebuf.truncate os
  pure { L with os := os }

/-- The loop of `prune_back`, on the log from its back. -/
def popBack (index : UInt64) (truncateAt : Int64) :
    List StateMachineUpdate → List StateMachineUpdate × Int64
  | [] => ([], truncateAt)
  | e :: es => if index < e.index then popBack index e.pos es else (e :: es, truncateAt)

/-- The part of `prune_back` for an index in front of the last one. -/
def cutBack (L : Log) (index : UInt64) (back : StateMachineUpdate) :
    Except Failure (Log × Option Code) :=
  let (rest, truncateAt) := popBack index back.pos L.log.reverse
  let L := { L with log := rest.reverse }
  match L.log.getLast? with
  | none => pure (L, some .stateNotRecoverable)
  | some e =>
    if e.index ≠ index then pure (L, some .stateNotRecoverable)
    else do
      let L ← L.truncate truncateAt
      pure (L, none)

def pruneBack (L : Log) (index : UInt64) : Except Failure (Log × Option Code) :=
  match L.log.head?, L.log.getLast? with
  | some front, some back =>
    if index < front.index ∨ back.index < index then pure (L, some .invalidArgument)
    else if index < back.index then L.cutBack index back
    else pure (L, none)
  | _, _ => throw .undefined

/-- The loop of `prune_front` that copies the updates. -/
def writeEntries : List StateMachineUpdate → Obfilebuf →
    Except Failure (List StateMachineUpdate × Obfilebuf)
  | [], os => pure ([], os)
  | e :: es, os => do
    let e := { e with pos := position os }
    let os ← writeFrame os (.stateMachineUpdate e) false
    let (es, os) ← writeEntries es os
    pure (e :: es, os)

/-- The first half of the file operations of `prune_front`: the temporary file. -/
def writeTemp (L : Log) : Except Failure Log := do
  let os ← Obfilebuf.open_ L.os L.logTempPathname .truncate
  let (log, os) ← writeEntries L.log os
  let L ← writeState { L with os := os, log := log }
  let os ← Obfilebuf.close L.os
  pure { L with os := os }

/-- The second half: the temporary file becomes the log. -/
def replaceLog (L : Log) : Except Failure Log := do
  let world ← (L.world.rename L.logTempPathname L.logPathname).mapError Failure.errno
  let os ← Obfilebuf.open_ (L.setWorld world).os L.logPathname .append
  pure { L with os := os }

def rewrite (L : Log) : Except Failure Log := do
  let os ← Obfilebuf.close L.os
  let L ← writeTemp { L with os := os }
  replaceLog L

/-- What `prune_front` does when it reports an error. -/
def closeOnError (L : Log) (err : Code) : Except Failure (Log × Option Code) := do
  let os ← Obfilebuf.closeIfOpen L.os
  pure ({ L with os := os }, some err)

def pruneFront (L : Log) (index : UInt64) : Except Failure (Log × Option Code) :=
  match L.log.head?, L.log.getLast? with
  | some front, some back =>
    if index < front.index ∨ back.index < index then L.closeOnError .invalidArgument
    else if front.index < index then
      let L := { L with log := L.log.dropWhile fun e => e.index < index }
      match L.log.head? with
      | none => L.closeOnError .stateNotRecoverable
      | some e =>
        if e.index ≠ index then L.closeOnError .stateNotRecoverable
        else do
          let L ← L.rewrite
          pure (L, none)
    else pure (L, none)
  | _, _ => throw .undefined

end Log

/-! ### Runs -/

inductive Op
  | append (ep : StateMachineUpdate)
  | updateReplicantState (self currentTerm votedFor : UInt64)
  | pruneFront (index : UInt64)
  | pruneBack (index : UInt64)
  deriving DecidableEq, Repr

namespace Log

def step (L : Log) : Op → Except Failure (Log × Option Code)
  | .append ep => do
    let L ← L.append ep
    pure (L, none)
  | .updateReplicantState self currentTerm votedFor =>
    L.updateReplicantState self currentTerm votedFor
  | .pruneFront index => L.pruneFront index
  | .pruneBack index => L.pruneBack index

def run (L : Log) : List Op → Except Failure Log
  | [] => pure L
  | op :: ops => do
    let (L, _) ← L.step op
    run L ops

end Log

end Nodeoze.Raft
