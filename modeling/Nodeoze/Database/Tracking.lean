import Nodeoze.Database.ContinuousSelect

/-!
# A continuous select tracks its query

Seen from one oid, the queue is the list of events still to be handled for it. The invariant says
per oid how that list, the oid's bit and the table fit: an insert callback is only ever reached with
the bit clear, the last event decides what the list leaves behind, and with no event left the bit is
the query's own answer. Every callback settles the bit of its oid from the table of the moment, so
the invariant does not depend on how changes and callbacks interleave.

An update that moves a row to another oid announces the new oid only. The step condition `Allows`
says when nothing is lost by that.
-/

namespace Nodeoze.Database

/-- The events queued for one oid, oldest first. -/
def pendingFor (queue : List (Event × Oid)) (oid : Oid) : List Event :=
  queue.filterMap fun entry => if entry.2 = oid then some entry.1 else none

theorem pendingFor_append_self (queue : List (Event × Oid)) (event : Event) (oid : Oid) :
    pendingFor (queue ++ [(event, oid)]) oid = pendingFor queue oid ++ [event] := by
  simp [pendingFor]

theorem pendingFor_append_other (queue : List (Event × Oid)) (event : Event) {oid o : Oid}
    (h : o ≠ oid) : pendingFor (queue ++ [(event, oid)]) o = pendingFor queue o := by
  simp [pendingFor, Ne.symm h]

theorem pendingFor_cons_self (queue : List (Event × Oid)) (event : Event) (oid : Oid) :
    pendingFor ((event, oid) :: queue) oid = event :: pendingFor queue oid := by
  simp [pendingFor]

theorem pendingFor_cons_other (queue : List (Event × Oid)) (event : Event) {oid o : Oid}
    (h : o ≠ oid) : pendingFor ((event, oid) :: queue) o = pendingFor queue o := by
  simp [pendingFor, Ne.symm h]

/-- Whether the oid may be reported once the events are handled: the last one decides. -/
def expects (bit : Bool) (events : List Event) : Bool :=
  events.foldl (fun _ event => event != .delete) bit

@[simp] theorem expects_nil (bit : Bool) : expects bit [] = bit := rfl

@[simp] theorem expects_cons (bit : Bool) (event : Event) (rest : List Event) :
    expects bit (event :: rest) = expects (event != .delete) rest := rfl

@[simp] theorem expects_append (bit : Bool) (events : List Event) (event : Event) :
    expects bit (events ++ [event]) = (event != .delete) := by
  simp [expects]

theorem expects_of_ne_nil (bit bit' : Bool) {events : List Event} (h : events ≠ []) :
    expects bit events = expects bit' events := by
  cases events with
  | nil => exact absurd rfl h
  | cons event rest => rfl

theorem expects_eq_false {bit : Bool} {events : List Event} (hbit : events = [] → bit = false)
    (hlast : ∀ event ∈ events.getLast?, event = .delete) : expects bit events = false := by
  rcases List.eq_nil_or_concat events with rfl | ⟨rest, event, rfl⟩
  · exact hbit rfl
  · rw [hlast event (by simp)]
    simp

/-- Every insert among the events meets the oid not reported, if it may be reported now as `bit` says. -/
def Fits : Bool → List Event → Prop
  | _, [] => True
  | bit, event :: rest => (event = .insert → bit = false) ∧ Fits (event != .delete) rest

theorem Fits.mono {bit bit' : Bool} {events : List Event} (h : Fits bit events)
    (hle : bit = false → bit' = false) : Fits bit' events := by
  cases events with
  | nil => trivial
  | cons event rest => exact ⟨fun he => hle (h.1 he), h.2⟩

theorem Fits.append {bit : Bool} {events : List Event} (h : Fits bit events) {event : Event}
    (hev : event = .insert → expects bit events = false) : Fits bit (events ++ [event]) := by
  induction events generalizing bit with
  | nil => exact ⟨hev, trivial⟩
  | cons first rest ih => exact ⟨h.1, ih h.2 hev⟩

namespace Select

variable {Row : Type} {q : Select Row} {s s' : State Row}

/-- One oid's bit, the events queued for it and the table fit. -/
structure Tracked (q : Select Row) (s : State Row) (oid : Oid) : Prop where
  fits : Fits (s.bitmap.isBitSet oid) (pendingFor s.queue oid)
  gone : expects (s.bitmap.isBitSet oid) (pendingFor s.queue oid) = false →
    q.selects s.tables oid = false
  known : pendingFor s.queue oid = [] → s.bitmap.isBitSet oid = true →
    q.selects s.tables oid = true

/-- The invariant of a continuous select. -/
structure Invariant (q : Select Row) (s : State Row) : Prop where
  mirrors : s.Mirrors
  tracked : ∀ oid, Tracked q s oid

/-! ## The row changes -/

/-- The state after a row change: its event is handed to the listeners, then the table changes. -/
def changed (q : Select Row) (s : State Row) (event : Event) (target : String) (oid : Oid)
    (tables : String → Oid → Option Row) : State Row :=
  { q.listen s (some ⟨event, target, oid⟩) with tables := tables }

theorem insertRow_cases (q : Select Row) (s : State Row) (target : String) (oid : Oid) (row : Row) :
    q.insertRow s target oid row = s ∨ s.tables target oid = none ∧
      q.insertRow s target oid row =
        changed q s .insert target oid (setRow s.tables target oid (some row)) := by
  unfold Select.insertRow
  cases s.tables target oid with
  | some _ => exact Or.inl rfl
  | none => exact Or.inr ⟨rfl, rfl⟩

theorem updateRow_cases (q : Select Row) (s : State Row) (target : String) (old new : Oid)
    (row : Row) :
    q.updateRow s target old new row = s ∨
      ((s.tables target old).isSome ∧ (new = old ∨ s.tables target new = none)) ∧
        q.updateRow s target old new row = changed q s .update target new
          (setRow (setRow s.tables target old none) target new (some row)) := by
  unfold Select.updateRow
  split
  case isTrue hgo => exact Or.inr ⟨hgo, rfl⟩
  case isFalse => exact Or.inl rfl

theorem deleteRow_cases (q : Select Row) (s : State Row) (target : String) (oid : Oid) :
    q.deleteRow s target oid = s ∨
      q.deleteRow s target oid = changed q s .delete target oid (setRow s.tables target oid none) := by
  unfold Select.deleteRow
  cases s.tables target oid with
  | none => exact Or.inl rfl
  | some _ => exact Or.inr rfl

section changed

variable {event : Event} {target : String} {oid : Oid} {tables : String → Oid → Option Row}

theorem changed_eq : changed q s event target oid tables =
    if q.table = target then { s with queue := s.queue ++ [(event, oid)], tables := tables }
    else { s with tables := tables } := by
  by_cases htable : q.table = target <;> simp [changed, listen, htable]

@[simp] theorem changed_tables : (changed q s event target oid tables).tables = tables := rfl

@[simp] theorem changed_bitmap : (changed q s event target oid tables).bitmap = s.bitmap := by
  rw [changed_eq]
  split <;> rfl

@[simp] theorem changed_calls : (changed q s event target oid tables).calls = s.calls := by
  rw [changed_eq]
  split <;> rfl

theorem pendingFor_changed_self (htable : q.table = target) :
    pendingFor (changed q s event target oid tables).queue oid =
      pendingFor s.queue oid ++ [event] := by
  rw [changed_eq, if_pos htable]
  exact pendingFor_append_self _ _ _

theorem pendingFor_changed_other {o : Oid} (h : q.table = target → o ≠ oid) :
    pendingFor (changed q s event target oid tables).queue o = pendingFor s.queue o := by
  rw [changed_eq]
  split
  case isTrue htable => exact pendingFor_append_other _ _ (h htable)
  case isFalse => rfl

end changed

theorem setRow_other (tables : String → Oid → Option Row) {target : String} {oid o : Oid}
    (row : Option Row) (h : q.table = target → o ≠ oid) :
    setRow tables target oid row q.table o = tables q.table o := by
  have hmiss : ¬ (q.table = target ∧ o = oid) := fun hhit => h hhit.1 hhit.2
  simp [setRow, hmiss]

theorem selects_congr {tables tables' : String → Oid → Option Row} {oid : Oid}
    (h : tables' q.table oid = tables q.table oid) : q.selects tables' oid = q.selects tables oid := by
  simp [selects, h]

theorem selects_setRow_none (tables : String → Oid → Option Row) (oid : Oid) :
    q.selects (setRow tables q.table oid none) oid = false := by
  simp [selects, setRow]

/-- An oid of which neither the events, the bit nor the row change stays tracked. -/
theorem Tracked.frame {oid : Oid} (h : Tracked q s oid)
    (hbit : s'.bitmap.isBitSet oid = s.bitmap.isBitSet oid)
    (hqueue : pendingFor s'.queue oid = pendingFor s.queue oid)
    (hsel : q.selects s'.tables oid = q.selects s.tables oid) : Tracked q s' oid := by
  refine ⟨?_, ?_, ?_⟩
  · rw [hbit, hqueue]
    exact h.fits
  · rw [hbit, hqueue, hsel]
    exact h.gone
  · rw [hbit, hqueue, hsel]
    exact h.known

/-- One more event for an oid, with the row changed as the event says. -/
theorem Tracked.push {oid : Oid} (h : Tracked q s oid) {event : Event}
    (hbit : s'.bitmap.isBitSet oid = s.bitmap.isBitSet oid)
    (hqueue : pendingFor s'.queue oid = pendingFor s.queue oid ++ [event])
    (hinsert : event = .insert →
      expects (s.bitmap.isBitSet oid) (pendingFor s.queue oid) = false)
    (hdelete : event = .delete → q.selects s'.tables oid = false) : Tracked q s' oid := by
  refine ⟨?_, ?_, ?_⟩
  · rw [hbit, hqueue]
    exact h.fits.append hinsert
  · rw [hqueue, expects_append]
    intro hlast
    exact hdelete (by simpa using hlast)
  · rw [hqueue]
    intro hnil
    simp at hnil

/-- A change keeps the invariant if its own oid is announced as its event demands, and every other oid
keeps its row or has lost it unreported. -/
theorem Invariant.changed (h : Invariant q s) {event : Event} {target : String} {oid : Oid}
    {tables : String → Oid → Option Row}
    (hinsert : q.table = target → event = .insert →
      expects (s.bitmap.isBitSet oid) (pendingFor s.queue oid) = false)
    (hdelete : q.table = target → event = .delete → q.selects tables oid = false)
    (hrest : ∀ o, (q.table = target → o ≠ oid) →
      q.selects tables o = q.selects s.tables o ∨
      q.selects tables o = false ∧ (pendingFor s.queue o = [] → s.bitmap.isBitSet o = false)) :
    Invariant q (changed q s event target oid tables) := by
  refine ⟨?_, ?_⟩
  · unfold State.Mirrors
    rw [changed_calls, changed_bitmap]
    exact h.mirrors
  · intro o
    by_cases hown : q.table = target ∧ o = oid
    · obtain ⟨htable, rfl⟩ := hown
      apply (h.tracked o).push (by simp) (pendingFor_changed_self htable) (hinsert htable)
      exact hdelete htable
    · have hother : q.table = target → o ≠ oid := fun htable ho => hown ⟨htable, ho⟩
      have hpending : pendingFor (Select.changed q s event target oid tables).queue o =
          pendingFor s.queue o := pendingFor_changed_other hother
      rcases hrest o hother with hsame | ⟨hnone, hclear⟩
      · exact (h.tracked o).frame (by simp) hpending hsame
      · refine ⟨?_, fun _ => hnone, ?_⟩
        · rw [hpending, changed_bitmap]
          exact (h.tracked o).fits
        · rw [hpending, changed_bitmap]
          intro hnil hset
          rw [hclear hnil] at hset
          cases hset

/-- When nothing is lost by announcing an update under its new oid only: the old oid is not reported,
or a callback for it is still queued; and a row enters an oid only behind the callback of the delete
that freed it, if any callback is queued there at all. -/
def Allows (q : Select Row) (s : State Row) : Step Row → Prop
  | .insertRow target oid _ =>
    target = q.table → s.tables target oid = none →
      ∀ event ∈ (pendingFor s.queue oid).getLast?, event = .delete
  | .updateRow target old new _ =>
    target = q.table → (s.tables target old).isSome → s.tables target new = none →
      s.bitmap.isBitSet old = false ∨ pendingFor s.queue old ≠ []
  | .deleteRow _ _ => True
  | .runNext => True

instance (q : Select Row) (s : State Row) : DecidablePred (Allows q s)
  | .insertRow target oid _ =>
    inferInstanceAs (Decidable (target = q.table → s.tables target oid = none →
      ∀ event ∈ (pendingFor s.queue oid).getLast?, event = .delete))
  | .updateRow target old new _ =>
    inferInstanceAs (Decidable (target = q.table → (s.tables target old).isSome →
      s.tables target new = none → s.bitmap.isBitSet old = false ∨ pendingFor s.queue old ≠ []))
  | .deleteRow _ _ => inferInstanceAs (Decidable True)
  | .runNext => inferInstanceAs (Decidable True)

theorem Invariant.insertRow (h : Invariant q s) {target : String} {oid : Oid} {row : Row}
    (hallow : Allows q s (.insertRow target oid row)) :
    Invariant q (q.insertRow s target oid row) := by
  rcases insertRow_cases q s target oid row with heq | ⟨hfree, heq⟩
  · rw [heq]
    exact h
  · rw [heq]
    apply h.changed
    · intro htable _
      subst htable
      apply expects_eq_false _ (hallow rfl hfree)
      intro hnil
      -- a reported oid with nothing queued has a row
      cases hbit : s.bitmap.isBitSet oid with
      | false => rfl
      | true =>
        have hsel := (h.tracked oid).known hnil hbit
        simp [selects, hfree] at hsel
    · intro _ he
      cases he
    · intro o ho
      exact Or.inl (selects_congr (setRow_other _ _ ho))

theorem Invariant.deleteRow (h : Invariant q s) (target : String) (oid : Oid) :
    Invariant q (q.deleteRow s target oid) := by
  rcases deleteRow_cases q s target oid with heq | heq
  · rw [heq]
    exact h
  · rw [heq]
    apply h.changed
    · intro _ he
      cases he
    · intro htable _
      subst htable
      exact selects_setRow_none _ _
    · intro o ho
      exact Or.inl (selects_congr (setRow_other _ _ ho))

theorem Invariant.updateRow (h : Invariant q s) {target : String} {old new : Oid} {row : Row}
    (hallow : Allows q s (.updateRow target old new row)) :
    Invariant q (q.updateRow s target old new row) := by
  rcases updateRow_cases q s target old new row with heq | ⟨⟨hsome, hfree⟩, heq⟩
  · rw [heq]
    exact h
  · rw [heq]
    apply h.changed
    · intro _ he
      cases he
    · intro _ he
      cases he
    · intro o ho
      rw [selects_congr (setRow_other _ _ ho)]
      by_cases hold : q.table = target ∧ o = old
      · -- the row has left `old`, which the update does not announce
        obtain ⟨htable, rfl⟩ := hold
        subst htable
        refine Or.inr ⟨selects_setRow_none _ _, ?_⟩
        intro hnil
        rcases hallow rfl hsome (hfree.resolve_left (Ne.symm (ho rfl))) with hclear | hqueued
        · exact hclear
        · exact absurd hnil hqueued
      · apply Or.inl
        apply selects_congr
        exact setRow_other _ _ fun htable ho => hold ⟨htable, ho⟩

/-! ## The callbacks -/

theorem Invariant.runNext (h : Invariant q s) :
    ∃ s', q.runNext s = some s' ∧ Invariant q s' := by
  unfold Select.runNext
  cases hqueue : s.queue with
  | nil => exact ⟨s, rfl, h⟩
  | cons entry rest =>
    obtain ⟨event, oid⟩ := entry
    have hown := h.tracked oid
    obtain ⟨hfits, hgone, -⟩ := hown
    rw [hqueue, pendingFor_cons_self] at hfits hgone
    obtain ⟨s', hrun, hset⟩ := callback_settles (q := q) (s := { s with queue := rest }) hfits.1
    refine ⟨s', hrun, hset.mirrors h.mirrors, ?_⟩
    intro o
    by_cases ho : o = oid
    · subst ho
      refine ⟨?_, ?_, ?_⟩
      · rw [hset.queue, hset.bit]
        apply hfits.2.mono
        intro hlast
        simp [hlast]
      · rw [hset.queue, hset.tables, hset.bit]
        intro hexp
        by_cases hnil : pendingFor rest o = []
        · rw [hnil, expects_nil] at hexp
          rcases Bool.and_eq_false_iff.mp hexp with hdel | hsel
          · rw [hnil, expects_cons, expects_nil] at hgone
            exact hgone hdel
          · exact hsel
        · apply hgone
          rw [expects_cons, expects_of_ne_nil _ _ hnil]
          exact hexp
      · rw [hset.tables, hset.bit]
        intro _ hbit
        exact (Bool.and_eq_true_iff.mp hbit).2
    · apply (h.tracked o).frame (hset.frame o ho)
      · rw [hset.queue, hqueue, pendingFor_cons_other _ _ ho]
      · rw [hset.tables]

/-! ## Runs -/

theorem Invariant.step (h : Invariant q s) {x : Step Row} (hallow : Allows q s x) :
    ∃ s', q.step s x = some s' ∧ Invariant q s' := by
  cases x with
  | insertRow target oid row => exact ⟨_, rfl, h.insertRow hallow⟩
  | updateRow target old new row => exact ⟨_, rfl, h.updateRow hallow⟩
  | deleteRow target oid => exact ⟨_, rfl, h.deleteRow target oid⟩
  | runNext => exact h.runNext

/-- Every step of the run is allowed in the state it is taken in. -/
def AllowsRun (q : Select Row) : State Row → List (Step Row) → Prop
  | _, [] => True
  | s, x :: xs => Allows q s x ∧
    match q.step s x with
    | none => True
    | some s' => AllowsRun q s' xs

def decideAllowsRun (q : Select Row) : ∀ (s : State Row) (xs : List (Step Row)),
    Decidable (AllowsRun q s xs)
  | _, [] => isTrue trivial
  | s, x :: xs =>
    match hstep : q.step s x with
    | none => decidable_of_iff (Allows q s x) (by simp [AllowsRun, hstep])
    | some s' =>
      have := decideAllowsRun q s' xs
      decidable_of_iff (Allows q s x ∧ AllowsRun q s' xs) (by simp [AllowsRun, hstep])

instance (q : Select Row) (s : State Row) (xs : List (Step Row)) : Decidable (AllowsRun q s xs) :=
  decideAllowsRun q s xs

theorem AllowsRun.tail {x : Step Row} {xs : List (Step Row)} (h : AllowsRun q s (x :: xs))
    (hstep : q.step s x = some s') : AllowsRun q s' xs := by
  have hnext := h.2
  rw [hstep] at hnext
  exact hnext

theorem Invariant.run (h : Invariant q s) {xs : List (Step Row)} (hallow : AllowsRun q s xs) :
    ∃ s', q.run s xs = some s' ∧ Invariant q s' := by
  induction xs generalizing s with
  | nil => exact ⟨s, rfl, h⟩
  | cons x xs ih =>
    obtain ⟨t, hstep, ht⟩ := h.step hallow.1
    obtain ⟨s', hrun, hs'⟩ := ih ht (hallow.tail hstep)
    exact ⟨s', by simp [Select.run, hstep, hrun], hs'⟩

theorem AllowsRun.take {xs : List (Step Row)} (h : AllowsRun q s xs) (n : Nat) :
    AllowsRun q s (xs.take n) := by
  induction xs generalizing s n with
  | nil => simpa using h
  | cons x xs ih =>
    cases n with
    | zero => trivial
    | succ n =>
      refine ⟨h.1, ?_⟩
      cases hstep : q.step s x with
      | none => trivial
      | some s' => exact ih (h.tail hstep) n

/-- The loop over the first select reports the oids it passes and no others. -/
theorem foldl_reportSet (oids : List Oid) (hnodup : oids.Nodup) (hm : s.Mirrors)
    (hclear : ∀ oid ∈ oids, s.bitmap.isBitSet oid = false) :
    let s' := oids.foldl (fun s oid => reportSet s .insert oid) s
    s'.Mirrors ∧ s'.tables = s.tables ∧ s'.queue = s.queue ∧
      ∀ oid, s'.bitmap.isBitSet oid = (decide (oid ∈ oids) || s.bitmap.isBitSet oid) := by
  induction oids generalizing s with
  | nil => simp [hm]
  | cons first rest ih =>
    obtain ⟨hnotin, hrest⟩ := List.nodup_cons.mp hnodup
    have hclear' : ∀ oid ∈ rest, (reportSet s .insert first).bitmap.isBitSet oid = false := by
      intro oid hmem
      have hne : oid ≠ first := fun heq => hnotin (heq ▸ hmem)
      simp [reportSet, hne, hclear oid (by simp [hmem])]
    obtain ⟨hm', ht, hq, hb⟩ := ih hrest (mirrors_reportSet hm (hclear first (by simp))) hclear'
    refine ⟨hm', ht, hq, ?_⟩
    intro oid
    have hbit : (reportSet s .insert first).bitmap.isBitSet oid =
        (decide (oid = first) || s.bitmap.isBitSet oid) := Bitmap.isBitSet_setBit _ _ _
    rw [List.foldl_cons, hb, hbit]
    by_cases hfst : oid = first <;> by_cases hmem : oid ∈ rest <;> simp [hfst, hmem]

theorem invariant_start (tables : String → Oid → Option Row) (selected : q.Selected tables) :
    Invariant q (start tables selected.oids) := by
  have hempty : (⟨tables, Bitmap.empty, [], []⟩ : State Row).Mirrors := ⟨∅, rfl, by simp⟩
  obtain ⟨hm, ht, hq, hb⟩ := foldl_reportSet selected.oids selected.nodup hempty (by simp)
  refine ⟨hm, ?_⟩
  intro oid
  have hbit : (start tables selected.oids).bitmap.isBitSet oid = q.selects tables oid := by
    rw [start, hb, Bool.eq_iff_iff]
    simp [selected.mem_iff]
  have hqueue : pendingFor (start tables selected.oids).queue oid = [] := by
    rw [start, hq]
    rfl
  have htables : (start tables selected.oids).tables = tables := ht
  refine ⟨?_, ?_, ?_⟩
  · rw [hqueue]
    trivial
  · rw [hqueue, hbit, htables]
    exact id
  · rw [hbit, htables]
    exact fun _ => id

/-- The handler calls are well formed, and with no callback queued the oids they leave reported are
those of the rows the query selects. -/
def Reports (q : Select Row) (s : State Row) : Prop :=
  ∃ reported, replay s.calls = some reported ∧
    (s.queue = [] → ∀ oid, oid ∈ reported ↔ q.selects s.tables oid = true)

theorem Invariant.reports (h : Invariant q s) : Reports q s := by
  obtain ⟨reported, hreplay, hmem⟩ := h.mirrors
  refine ⟨reported, hreplay, ?_⟩
  intro hempty oid
  have hnil : pendingFor s.queue oid = [] := by
    rw [hempty]
    rfl
  rw [hmem]
  constructor
  · exact (h.tracked oid).known hnil
  · intro hsel
    by_contra hclear
    have hgone := (h.tracked oid).gone
    rw [hnil, expects_nil] at hgone
    rw [hgone (by simpa using hclear)] at hsel
    cases hsel

/-- Along every allowed run, whatever the interleaving of changes and callbacks, no assertion fails and
the select reports its query. -/
theorem select_reports (q : Select Row) (tables : String → Oid → Option Row)
    (selected : q.Selected tables) (xs : List (Step Row))
    (hallow : AllowsRun q (start tables selected.oids) xs) (n : Nat) :
    ∃ s, q.run (start tables selected.oids) (xs.take n) = some s ∧ Reports q s := by
  obtain ⟨s, hrun, hs⟩ := (invariant_start tables selected).run (hallow.take n)
  exact ⟨s, hrun, hs.reports⟩

/-! ## Updates that keep the oid -/

/-- A row change of a database whose updates keep the oid of their row. -/
def KeepsOid : Step Row → Prop
  | .updateRow _ old new _ => new = old
  | _ => True

/-- Where there is no row, the last callback queued is that of a delete. -/
def Freed (q : Select Row) (s : State Row) : Prop :=
  ∀ oid, s.tables q.table oid = none →
    ∀ event ∈ (pendingFor s.queue oid).getLast?, event = .delete

theorem Freed.changed (h : Freed q s) {event : Event} {target : String} {oid : Oid}
    {tables : String → Oid → Option Row}
    (hown : q.table = target → tables q.table oid = none → event = .delete)
    (hrest : ∀ o, (q.table = target → o ≠ oid) → tables q.table o = s.tables q.table o) :
    Freed q (changed q s event target oid tables) := by
  intro o hnone e hlast
  by_cases ho : q.table = target ∧ o = oid
  · obtain ⟨htable, rfl⟩ := ho
    rw [pendingFor_changed_self htable, List.getLast?_append] at hlast
    have heq : event = e := by simpa using hlast
    exact heq ▸ hown htable hnone
  · have hother : q.table = target → o ≠ oid := fun htable heq => ho ⟨htable, heq⟩
    rw [pendingFor_changed_other hother] at hlast
    rw [changed_tables, hrest o hother] at hnone
    exact h o hnone e hlast

theorem Freed.allows (h : Freed q s) {x : Step Row} (hx : KeepsOid x) : Allows q s x := by
  cases x with
  | insertRow target oid row =>
    intro htable hfree
    subst htable
    exact h oid hfree
  | updateRow target old new row =>
    intro _ hsome hfree
    rw [show new = old from hx] at hfree
    simp [hfree] at hsome
  | deleteRow target oid => trivial
  | runNext => trivial

theorem Freed.runNext (h : Freed q s) (hinv : Invariant q s) (hrun : q.runNext s = some s') :
    Freed q s' := by
  unfold Select.runNext at hrun
  cases hqueue : s.queue with
  | nil =>
    rw [hqueue] at hrun
    exact Option.some.inj hrun ▸ h
  | cons entry rest =>
    obtain ⟨event, oid⟩ := entry
    rw [hqueue] at hrun
    have hfits := (hinv.tracked oid).fits
    rw [hqueue, pendingFor_cons_self] at hfits
    obtain ⟨t, ht, hset⟩ := callback_settles (q := q) (s := { s with queue := rest }) hfits.1
    obtain rfl : t = s' := Option.some.inj (ht.symm.trans hrun)
    intro o hnone e hlast
    rw [hset.queue] at hlast
    rw [hset.tables] at hnone
    apply h o hnone e
    rw [hqueue]
    -- the last event of the tail is the last event of the whole
    have hmem : e ∈ (pendingFor rest o).getLast? := hlast
    by_cases ho : o = oid
    · subst ho
      rw [pendingFor_cons_self, List.getLast?_cons, Option.mem_def.mp hmem]
      rfl
    · rw [pendingFor_cons_other _ _ ho]
      exact hmem

theorem Freed.step (h : Freed q s) (hinv : Invariant q s) {x : Step Row} (hx : KeepsOid x)
    (hstep : q.step s x = some s') : Freed q s' := by
  cases x with
  | insertRow target oid row =>
    obtain rfl : q.insertRow s target oid row = s' := Option.some.inj hstep
    rcases insertRow_cases q s target oid row with heq | ⟨-, heq⟩
    · rw [heq]
      exact h
    · rw [heq]
      apply h.changed
      · intro htable hnone
        simp [setRow, htable] at hnone
      · exact fun o ho => setRow_other _ _ ho
  | updateRow target old new row =>
    obtain rfl : q.updateRow s target old new row = s' := Option.some.inj hstep
    obtain rfl : new = old := hx
    rcases updateRow_cases q s target new new row with heq | ⟨-, heq⟩
    · rw [heq]
      exact h
    · rw [heq]
      apply h.changed
      · intro htable hnone
        simp [setRow, htable] at hnone
      · intro o ho
        rw [setRow_other _ _ ho, setRow_other _ _ ho]
  | deleteRow target oid =>
    obtain rfl : q.deleteRow s target oid = s' := Option.some.inj hstep
    rcases deleteRow_cases q s target oid with heq | heq
    · rw [heq]
      exact h
    · rw [heq]
      apply h.changed
      · exact fun _ _ => rfl
      · exact fun o ho => setRow_other _ _ ho
  | runNext => exact h.runNext hinv hstep

theorem allowsRun_of_keepsOid (hinv : Invariant q s) (h : Freed q s) {xs : List (Step Row)}
    (hxs : ∀ x ∈ xs, KeepsOid x) : AllowsRun q s xs := by
  induction xs generalizing s with
  | nil => trivial
  | cons x xs ih =>
    have hallow := h.allows (hxs x (by simp))
    obtain ⟨s', hstep, hs'⟩ := hinv.step hallow
    refine ⟨hallow, ?_⟩
    rw [hstep]
    exact ih hs' (h.step hinv (hxs x (by simp)) hstep) fun y hy => hxs y (by simp [hy])

/-- A database whose updates keep the oid of their row is always reported. -/
theorem select_reports_keepsOid (q : Select Row) (tables : String → Oid → Option Row)
    (selected : q.Selected tables) (xs : List (Step Row)) (hxs : ∀ x ∈ xs, KeepsOid x) :
    ∃ s, q.run (start tables selected.oids) xs = some s ∧ Reports q s := by
  have hstart := invariant_start tables selected
  have hfreed : Freed q (start tables selected.oids) := by
    intro oid _ event hlast
    have hqueue : (start tables selected.oids).queue = [] :=
      (foldl_reportSet selected.oids selected.nodup ⟨∅, rfl, by simp⟩ (by simp)).2.2.1
    simp [hqueue, pendingFor] at hlast
  obtain ⟨s, hrun, hs⟩ := hstart.run (allowsRun_of_keepsOid hstart hfreed hxs)
  exact ⟨s, hrun, hs.reports⟩

/-! ## Two runs -/

/-- Rows of one flag, selected where the flag is set. -/
def flagged : Select Bool := ⟨"test", fun _ flag => flag⟩

/-- A flagged row at oid 3 and an unflagged one at oid 5. -/
def twoRows : String → Oid → Option Bool :=
  fun target oid => if target = "test" then [(3, true), (5, false)].lookup oid else none

def twoRowsSelected : flagged.Selected twoRows where
  oids := [3]
  nodup := by decide
  mem_iff := by
    intro oid
    by_cases h3 : oid = 3
    · subst h3
      decide
    · by_cases h5 : oid = 5
      · subst h5
        decide
      · have hno3 : (oid == 3) = false := beq_false_of_ne h3
        have hno5 : (oid == 5) = false := beq_false_of_ne h5
        simp [selects, flagged, twoRows, List.lookup_cons, h3, hno3, hno5]

/-- The unreported row moves from 5 to 8, and the oids 3 and 5 are used again. -/
def reusingRun : List (Step Bool) :=
  [.updateRow "test" 5 8 true, .deleteRow "test" 3, .insertRow "test" 3 true, .runNext,
    .insertRow "test" 5 true, .runNext, .runNext, .runNext]

theorem reusingRun_reports :
    AllowsRun flagged (start twoRows twoRowsSelected.oids) reusingRun ∧
      ∀ n, ∃ s, flagged.run (start twoRows twoRowsSelected.oids) (reusingRun.take n) = some s ∧
        Reports flagged s :=
  ⟨by decide, select_reports flagged twoRows twoRowsSelected reusingRun (by decide)⟩

/-- The reported row moves from 3 to 7: oid 3 stays reported, and the next row inserted there fails
the assertion. -/
theorem movedRow_stays :
    (∃ s, flagged.run (start twoRows twoRowsSelected.oids)
        [.updateRow "test" 3 7 true, .runNext] = some s ∧ ¬ Reports flagged s) ∧
      flagged.run (start twoRows twoRowsSelected.oids)
        [.updateRow "test" 3 7 true, .runNext, .insertRow "test" 3 true, .runNext] = none := by
  refine ⟨⟨_, rfl, ?_⟩, rfl⟩
  rintro ⟨reported, hreplay, hmem⟩
  have hreported : reported = {7, 3} := by
    apply Option.some.inj
    rw [← hreplay]
    decide
  have hthree := hmem rfl 3
  rw [hreported] at hthree
  exact absurd (hthree.mp (by decide)) (by decide)

end Select

end Nodeoze.Database
