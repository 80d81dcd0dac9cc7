import Mathlib.Data.Finset.Basic
import Nodeoze.Database.Bitmap

/-!
# Continuous select

`database::continuous_select` reports the rows of a query to a handler and keeps reporting as rows
change. SQLite calls `on_preupdate` before each row change; the hook emits an event that names one
oid; the listener queues a callback on the run loop. A callback looks the oid up again in the table
as it is when the callback runs, so it may see changes made after the one that queued it. A bitmap
holds the oids reported and not removed.

The database is a map from table names to tables, a table a partial map from oids to rows. A change
that SQLite refuses (an oid that is taken, a row that is not there) calls no hook and changes nothing.
-/

namespace Nodeoze.Database

abbrev Oid := Nat

/-- The `op` argument of the preupdate hook. -/
inductive Op
  | insert
  | update
  | delete
  deriving Repr, DecidableEq

/-- The events `on_preupdate` emits, named as the listeners' keys. -/
inductive Event
  | insert
  | update
  | delete
  deriving Repr, DecidableEq

/-- `emit( event, target, oid, .. )` -/
structure Emission where
  event : Event
  target : String
  oid : Oid
  deriving Repr, DecidableEq

/-- `database::on_preupdate`. An update names its new key only. -/
def onPreupdate (op : Op) (zDb zName : String) (key1 key2 : Oid) : Option Emission :=
  if zDb = "main" then
    match op with
    | .insert => some ⟨.insert, zName, key2⟩
    | .update => some ⟨.update, zName, key2⟩
    | .delete => some ⟨.delete, zName, key1⟩
  else none

/-- `action_type` -/
inductive Action
  | insert
  | update
  | remove
  deriving Repr, DecidableEq

/-- One call of the handler. -/
structure Call where
  action : Action
  oid : Oid
  deriving Repr, DecidableEq

/-- What one step of the check statement answers. -/
inductive Check
  | row
  | done
  deriving Repr, DecidableEq

/-- The database, the select's context, the run loop's queue and the handler calls made so far. -/
structure State (Row : Type) where
  tables : String → Oid → Option Row
  bitmap : Bitmap
  queue : List (Event × Oid)
  calls : List Call

/-- A continuous select: the table it names and its where clause. -/
structure Select (Row : Type) where
  table : String
  satisfies : Oid → Row → Bool

namespace Select

variable {Row : Type} (q : Select Row)

/-- The row with that oid exists and satisfies the where clause. -/
def selects (tables : String → Oid → Option Row) (oid : Oid) : Bool :=
  (tables q.table oid).any (q.satisfies oid)

/-- The `checker` lambda: the check statement, bound to the oid and stepped. -/
def checker (s : State Row) (oid : Oid) : Check :=
  if q.selects s.tables oid then .row else .done

/-- `bitmap.set_bit( oid ); handler( action, oid, stmt )` -/
def reportSet (s : State Row) (action : Action) (oid : Oid) : State Row :=
  { s with bitmap := s.bitmap.setBit oid, calls := s.calls ++ [⟨action, oid⟩] }

/-- `handler( action, oid, stmt )` alone. -/
def reportAgain (s : State Row) (oid : Oid) : State Row :=
  { s with calls := s.calls ++ [⟨.update, oid⟩] }

/-- `bitmap.clear_bit( oid ); handler( action_type::remove, oid, stmt )` -/
def reportRemove (s : State Row) (oid : Oid) : State Row :=
  { s with bitmap := s.bitmap.clearBit oid, calls := s.calls ++ [⟨.remove, oid⟩] }

/-- The callback the insert listener dispatches; `none` is a failed assertion. -/
def insertCallback (s : State Row) (oid : Oid) : Option (State Row) :=
  match q.checker s oid with
  | .row =>
    if s.bitmap.isBitSet oid then none
    else some (reportSet s .insert oid)
  | .done =>
    if s.bitmap.isBitSet oid then some (reportRemove s oid)
    else some s

/-- The callback the update listener dispatches. -/
def updateCallback (s : State Row) (oid : Oid) : State Row :=
  match q.checker s oid with
  | .row =>
    if s.bitmap.isBitSet oid then reportAgain s oid
    else reportSet s .insert oid
  | .done =>
    if s.bitmap.isBitSet oid then reportRemove s oid
    else s

/-- The callback the delete listener dispatches: it does not look the row up. -/
def removeCallback (s : State Row) (oid : Oid) : State Row :=
  if s.bitmap.isBitSet oid then reportRemove s oid else s

def callback (s : State Row) : Event → Oid → Option (State Row)
  | .insert, oid => q.insertCallback s oid
  | .update, oid => some (q.updateCallback s oid)
  | .delete, oid => some (removeCallback s oid)

/-- The three listeners: an event on the select's own table queues its callback. -/
def listen (s : State Row) : Option Emission → State Row
  | none => s
  | some e => if q.table = e.target then { s with queue := s.queue ++ [(e.event, e.oid)] } else s

/-- A table with the row of one oid replaced. -/
def setRow (tables : String → Oid → Option Row) (target : String) (oid : Oid) (row : Option Row) :
    String → Oid → Option Row :=
  fun t o => if t = target ∧ o = oid then row else tables t o

/-- A row is inserted, at an oid that is free. -/
def insertRow (s : State Row) (target : String) (oid : Oid) (row : Row) : State Row :=
  match s.tables target oid with
  | some _ => s
  | none =>
    { q.listen s (onPreupdate .insert "main" target oid oid) with
      tables := setRow s.tables target oid (some row) }

/-- The row at `old` is updated, at `new` from then on: its own oid or one that is free. -/
def updateRow (s : State Row) (target : String) (old new : Oid) (row : Row) : State Row :=
  if (s.tables target old).isSome ∧ (new = old ∨ s.tables target new = none) then
    { q.listen s (onPreupdate .update "main" target old new) with
      tables := setRow (setRow s.tables target old none) target new (some row) }
  else s

/-- The row at an oid is deleted. -/
def deleteRow (s : State Row) (target : String) (oid : Oid) : State Row :=
  match s.tables target oid with
  | none => s
  | some _ =>
    { q.listen s (onPreupdate .delete "main" target oid oid) with
      tables := setRow s.tables target oid none }

/-- The run loop runs the callback at the head of its queue. -/
def runNext (s : State Row) : Option (State Row) :=
  match s.queue with
  | [] => some s
  | (event, oid) :: rest => q.callback { s with queue := rest } event oid

end Select

/-- One step of the system: an autocommitted row change, or the run loop's next callback. -/
inductive Step (Row : Type)
  | insertRow (target : String) (oid : Oid) (row : Row)
  | updateRow (target : String) (old new : Oid) (row : Row)
  | deleteRow (target : String) (oid : Oid)
  | runNext

namespace Select

variable {Row : Type} (q : Select Row)

def step (s : State Row) : Step Row → Option (State Row)
  | .insertRow target oid row => some (q.insertRow s target oid row)
  | .updateRow target old new row => some (q.updateRow s target old new row)
  | .deleteRow target oid => some (q.deleteRow s target oid)
  | .runNext => q.runNext s

def run (s : State Row) : List (Step Row) → Option (State Row)
  | [] => some s
  | x :: xs => (q.step s x).bind fun s' => run s' xs

/-- The rows the first select returns, each once, in whatever order SQLite visits them. -/
structure Selected (tables : String → Oid → Option Row) where
  oids : List Oid
  nodup : oids.Nodup
  mem_iff : ∀ oid, oid ∈ oids ↔ q.selects tables oid = true

/-- The loop over the first select: `handler( action_type::insert, .. ); bitmap.set_bit( oid )`. -/
def start (tables : String → Oid → Option Row) (oids : List Oid) : State Row :=
  oids.foldl (fun s oid => reportSet s .insert oid) ⟨tables, Bitmap.empty, [], []⟩

end Select

/-! ## The stream of handler calls -/

/-- One call against the oids reported so far; `none` if the call does not fit them. -/
def Call.apply (reported : Finset Oid) (call : Call) : Option (Finset Oid) :=
  match call.action with
  | .insert => if call.oid ∈ reported then none else some (insert call.oid reported)
  | .update => if call.oid ∈ reported then some reported else none
  | .remove => if call.oid ∈ reported then some (reported.erase call.oid) else none

/-- The oids a stream of calls leaves reported, if the stream is well formed. -/
def replay (calls : List Call) : Option (Finset Oid) :=
  calls.foldlM Call.apply ∅

theorem replay_append (calls : List Call) (call : Call) :
    replay (calls ++ [call]) = (replay calls).bind fun reported => call.apply reported := by
  simp [replay, List.foldlM_append, Option.bind_eq_bind]

/-- The calls made so far are well formed and leave reported exactly the oids in the bitmap. -/
def State.Mirrors {Row : Type} (s : State Row) : Prop :=
  ∃ reported, replay s.calls = some reported ∧
    ∀ oid, oid ∈ reported ↔ s.bitmap.isBitSet oid = true

namespace Select

variable {Row : Type} {q : Select Row} {s : State Row}

theorem mirrors_reportSet (h : s.Mirrors) {oid : Oid} (hclear : s.bitmap.isBitSet oid = false) :
    (reportSet s .insert oid).Mirrors := by
  obtain ⟨reported, hreplay, hmem⟩ := h
  have hfresh : oid ∉ reported := by
    rw [hmem, hclear]
    exact Bool.false_ne_true
  refine ⟨insert oid reported, ?_, ?_⟩
  · simp [reportSet, replay_append, hreplay, Call.apply, hfresh]
  · intro o
    simp [reportSet, hmem]

theorem mirrors_reportAgain (h : s.Mirrors) {oid : Oid} (hset : s.bitmap.isBitSet oid = true) :
    (reportAgain s oid).Mirrors := by
  obtain ⟨reported, hreplay, hmem⟩ := h
  refine ⟨reported, ?_, hmem⟩
  simp [reportAgain, replay_append, hreplay, Call.apply, (hmem oid).mpr hset]

theorem mirrors_reportRemove (h : s.Mirrors) {oid : Oid} (hset : s.bitmap.isBitSet oid = true) :
    (reportRemove s oid).Mirrors := by
  obtain ⟨reported, hreplay, hmem⟩ := h
  refine ⟨reported.erase oid, ?_, ?_⟩
  · simp [reportRemove, replay_append, hreplay, Call.apply, (hmem oid).mpr hset]
  · intro o
    simp [reportRemove, hmem]

/-- What the callback of an event leaves: the table and the queue as they were, and the bit of its oid
as the table then has it, or clear after a delete. -/
structure Settled (q : Select Row) (s s' : State Row) (event : Event) (oid : Oid) : Prop where
  tables : s'.tables = s.tables
  queue : s'.queue = s.queue
  mirrors : s.Mirrors → s'.Mirrors
  bit : s'.bitmap.isBitSet oid = (event != .delete && q.selects s.tables oid)
  frame : ∀ o, o ≠ oid → s'.bitmap.isBitSet o = s.bitmap.isBitSet o

theorem settled_reportSet {event : Event} {oid : Oid} (hclear : s.bitmap.isBitSet oid = false)
    (hbit : (event != .delete && q.selects s.tables oid) = true) :
    Settled q s (reportSet s .insert oid) event oid where
  tables := rfl
  queue := rfl
  mirrors := fun h => mirrors_reportSet h hclear
  bit := by simp [reportSet, hbit]
  frame := fun o ho => by simp [reportSet, ho]

theorem settled_reportRemove {event : Event} {oid : Oid} (hset : s.bitmap.isBitSet oid = true)
    (hbit : (event != .delete && q.selects s.tables oid) = false) :
    Settled q s (reportRemove s oid) event oid where
  tables := rfl
  queue := rfl
  mirrors := fun h => mirrors_reportRemove h hset
  bit := by simp [reportRemove, hbit]
  frame := fun o ho => by simp [reportRemove, ho]

theorem settled_unchanged {event : Event} {oid : Oid}
    (hbit : s.bitmap.isBitSet oid = (event != .delete && q.selects s.tables oid)) :
    Settled q s s event oid :=
  ⟨rfl, rfl, id, hbit, fun _ _ => rfl⟩

theorem settled_reportAgain {oid : Oid} (hset : s.bitmap.isBitSet oid = true)
    (hsel : q.selects s.tables oid = true) : Settled q s (reportAgain s oid) .update oid where
  tables := rfl
  queue := rfl
  mirrors := fun h => mirrors_reportAgain h hset
  bit := by simp [reportAgain, hset, hsel]
  frame := fun _ _ => rfl

/-- The insert callback meets its assertion when its oid is not reported. -/
theorem insertCallback_settles {oid : Oid} (hclear : s.bitmap.isBitSet oid = false) :
    ∃ s', q.insertCallback s oid = some s' ∧ Settled q s s' .insert oid := by
  unfold insertCallback checker
  cases hsel : q.selects s.tables oid with
  | true =>
    refine ⟨reportSet s .insert oid, by simp [hclear], settled_reportSet hclear ?_⟩
    simp [hsel]
  | false =>
    refine ⟨s, by simp [hclear], settled_unchanged ?_⟩
    simp [hclear, hsel]

theorem updateCallback_settles (oid : Oid) : Settled q s (q.updateCallback s oid) .update oid := by
  unfold updateCallback checker
  cases hsel : q.selects s.tables oid <;> cases hbit : s.bitmap.isBitSet oid
  · exact settled_unchanged (by simp [hsel, hbit])
  · exact settled_reportRemove hbit (by simp [hsel])
  · exact settled_reportSet hbit (by simp [hsel])
  · exact settled_reportAgain hbit hsel

theorem removeCallback_settles (oid : Oid) : Settled q s (removeCallback s oid) .delete oid := by
  unfold removeCallback
  cases hbit : s.bitmap.isBitSet oid with
  | true => exact settled_reportRemove hbit (by simp)
  | false => exact settled_unchanged (by simp [hbit])

theorem callback_settles {event : Event} {oid : Oid}
    (hclear : event = .insert → s.bitmap.isBitSet oid = false) :
    ∃ s', q.callback s event oid = some s' ∧ Settled q s s' event oid := by
  cases event with
  | insert => exact insertCallback_settles (hclear rfl)
  | update => exact ⟨_, rfl, updateCallback_settles oid⟩
  | delete => exact ⟨_, rfl, removeCallback_settles oid⟩

end Select

end Nodeoze.Database
