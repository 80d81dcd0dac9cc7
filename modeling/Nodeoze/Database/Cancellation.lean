import Nodeoze.Database.Tracking

/-!
# Cancelling a continuous select

`continuous_select` returns an operation.  To reset it is to remove the three listeners and to reset
`check_stmt`.  But that is the copy of the deleter: every listener has a copy of its own, and every callback
that a listener has queued on the run loop another one, which nothing resets.  A callback that was queued
before the reset runs after it as if there had been none.

A reset by another listener of the event, or by the handler, is one behind that step: `emit` has taken the
listeners before it calls the first of them, and a callback does nothing behind its call of the handler.
-/

namespace Nodeoze.Database

/-- A continuous select and its operation.  `cancelled` records the calls made up to the reset. -/
structure Operation (Row : Type) where
  select : State Row
  listening : Bool
  cancelled : Option (List Call)

/-- A step of the system, or a reset of the operation. -/
inductive Act (Row : Type)
  | step (x : Step Row)
  | reset

namespace Select

variable {Row : Type} (q : Select Row)

/-- A change that no listener hears queues nothing. -/
def heard (listening : Bool) (s s' : State Row) : State Row :=
  if listening then s' else { s' with queue := s.queue }

/-- The deleter of the operation. -/
def cancel (c : Operation Row) : Operation Row :=
  match c.cancelled with
  | none => { c with listening := false, cancelled := some c.select.calls }
  | some _ => c

def act (c : Operation Row) : Act Row → Option (Operation Row)
  | .step .runNext => (q.runNext c.select).map fun s => { c with select := s }
  | .step x => (q.step c.select x).map fun s => { c with select := heard c.listening c.select s }
  | .reset => some (cancel c)

def actAll (c : Operation Row) : List (Act Row) → Option (Operation Row)
  | [] => some c
  | a :: as => (q.act c a).bind fun c' => actAll c' as

/-- What `continuous_select` returns. -/
def operation (tables : String → Oid → Option Row) (oids : List Oid) : Operation Row :=
  ⟨start tables oids, true, none⟩

/-- The handler has not been called since the reset. -/
def Silent (c : Operation Row) : Prop := ∀ calls, c.cancelled = some calls → c.select.calls = calls

/-- A callback has nothing to report: the row is not selected and not reported, or it was deleted and is
not reported. -/
def Idle (s : State Row) : Event → Oid → Prop
  | .delete, oid => s.bitmap.isBitSet oid = false
  | _, oid => q.selects s.tables oid = false ∧ s.bitmap.isBitSet oid = false

/-- Behind the reset, the next callback has nothing to report. -/
def Dry (c : Operation Row) : Act Row → Prop
  | .step .runNext =>
    c.cancelled ≠ none → ∀ entry ∈ c.select.queue.head?, q.Idle c.select entry.1 entry.2
  | _ => True

def DryRun (c : Operation Row) : List (Act Row) → Prop
  | [] => True
  | a :: as => q.Dry c a ∧ ∀ c', q.act c a = some c' → DryRun c' as

variable {q} {s s' : State Row} {c c' : Operation Row}

/-! ### One callback -/

theorem callback_idle {event : Event} {oid : Oid} (h : q.Idle s event oid) :
    q.callback s event oid = some s := by
  cases event with
  | insert => simp [callback, insertCallback, checker, h.1, h.2]
  | update => simp [callback, updateCallback, checker, h.1, h.2]
  | delete =>
    have hclear : s.bitmap.isBitSet oid = false := h
    simp [callback, removeCallback, hclear]

theorem callback_busy {event : Event} {oid : Oid} (h : ¬q.Idle s event oid)
    (hrun : q.callback s event oid = some s') : ∃ call, s'.calls = s.calls ++ [call] := by
  cases event with
  | insert =>
    rw [callback, insertCallback, checker] at hrun
    cases hsel : q.selects s.tables oid <;> cases hbit : s.bitmap.isBitSet oid
    · exact absurd ⟨hsel, hbit⟩ h
    · simp only [hsel, hbit] at hrun
      obtain rfl := Option.some.inj hrun
      exact ⟨_, rfl⟩
    · simp only [hsel, hbit] at hrun
      obtain rfl := Option.some.inj hrun
      exact ⟨_, rfl⟩
    · simp [hsel, hbit] at hrun
  | update =>
    rw [callback, updateCallback, checker] at hrun
    obtain rfl := Option.some.inj hrun
    cases hsel : q.selects s.tables oid <;> cases hbit : s.bitmap.isBitSet oid
    · exact absurd ⟨hsel, hbit⟩ h
    · exact ⟨⟨.remove, oid⟩, rfl⟩
    · exact ⟨⟨.insert, oid⟩, rfl⟩
    · exact ⟨⟨.update, oid⟩, rfl⟩
  | delete =>
    have hset : s.bitmap.isBitSet oid = true := by
      rw [← Bool.not_eq_false]
      exact h
    rw [callback, removeCallback, if_pos hset] at hrun
    obtain rfl := Option.some.inj hrun
    exact ⟨⟨.remove, oid⟩, rfl⟩

/-! ### One step -/

theorem step_calls {x : Step Row} (hx : x ≠ .runNext) (hstep : q.step s x = some s') :
    s'.calls = s.calls := by
  have hlisten : ∀ e, (q.listen s e).calls = s.calls := by
    intro e
    cases e with
    | none => rfl
    | some e =>
      rw [listen]
      split_ifs <;> rfl
  cases x with
  | insertRow target oid row =>
    obtain rfl := Option.some.inj hstep
    rw [insertRow]
    cases s.tables target oid with
    | none => exact hlisten _
    | some _ => rfl
  | updateRow target old new row =>
    obtain rfl := Option.some.inj hstep
    rw [updateRow]
    split_ifs
    · exact hlisten _
    · rfl
  | deleteRow target oid =>
    obtain rfl := Option.some.inj hstep
    rw [deleteRow]
    cases s.tables target oid with
    | none => rfl
    | some _ => exact hlisten _
  | runNext => exact absurd rfl hx

/-- Behind a reset a step that is dry leaves the calls as they are, and another one adds to them. -/
theorem act_calls {a : Act Row} {calls : List Call} (hcancelled : c.cancelled = some calls)
    (hact : q.act c a = some c') :
    c'.cancelled = some calls ∧ ∃ more, c'.select.calls = c.select.calls ++ more ∧
      (more = [] ↔ q.Dry c a) := by
  have hne : c.cancelled ≠ none := by
    rw [hcancelled]
    exact Option.some_ne_none calls
  cases a with
  | reset =>
    obtain rfl := Option.some.inj hact
    have hsame : cancel c = c := by rw [cancel, hcancelled]
    rw [hsame]
    exact ⟨hcancelled, [], (List.append_nil _).symm, iff_of_true rfl trivial⟩
  | step x =>
    by_cases hx : x = .runNext
    · subst hx
      obtain ⟨s', hrun, rfl⟩ := Option.map_eq_some_iff.mp hact
      refine ⟨hcancelled, ?_⟩
      rw [runNext] at hrun
      rcases hqueue : c.select.queue with _ | ⟨⟨event, oid⟩, rest⟩
      · rw [hqueue] at hrun
        obtain rfl := Option.some.inj hrun
        refine ⟨[], (List.append_nil _).symm, iff_of_true rfl ?_⟩
        intro _ entry hentry
        rw [hqueue] at hentry
        cases hentry
      · rw [hqueue] at hrun
        have hdry : q.Dry c (.step .runNext) ↔ q.Idle c.select event oid := by
          simp [Dry, hne, hqueue]
        by_cases hidle : q.Idle c.select event oid
        · have hsame := callback_idle (s := { c.select with queue := rest }) hidle
          obtain rfl := Option.some.inj (hsame.symm.trans hrun)
          exact ⟨[], (List.append_nil _).symm, iff_of_true rfl (hdry.mpr hidle)⟩
        · obtain ⟨call, hcall⟩ := callback_busy (s := { c.select with queue := rest }) hidle hrun
          refine ⟨[call], hcall, iff_of_false (List.cons_ne_nil _ _) ?_⟩
          rwa [hdry]
    · have hstep : ∃ s', q.step c.select x = some s' ∧
          c' = { c with select := heard c.listening c.select s' } := by
        cases x with
        | runNext => exact absurd rfl hx
        | insertRow target oid row => exact ⟨_, rfl, (Option.some.inj hact).symm⟩
        | updateRow target old new row => exact ⟨_, rfl, (Option.some.inj hact).symm⟩
        | deleteRow target oid => exact ⟨_, rfl, (Option.some.inj hact).symm⟩
      obtain ⟨s', hs', rfl⟩ := hstep
      have hcalls : (heard c.listening c.select s').calls = c.select.calls := by
        rw [← step_calls hx hs', heard]
        split_ifs <;> rfl
      refine ⟨hcancelled, [], by rw [List.append_nil, hcalls], iff_of_true rfl ?_⟩
      cases x with
      | runNext => exact absurd rfl hx
      | insertRow => trivial
      | updateRow => trivial
      | deleteRow => trivial

/-! ### Runs -/

/-- Behind the reset. -/
theorem calls_cancelled {as : List (Act Row)} {calls : List Call} (hcancelled : c.cancelled = some calls)
    (hrun : q.actAll c as = some c') :
    c'.cancelled = some calls ∧ ∃ more, c'.select.calls = c.select.calls ++ more ∧
      (more = [] ↔ q.DryRun c as) := by
  induction as generalizing c with
  | nil =>
    obtain rfl := Option.some.inj hrun
    exact ⟨hcancelled, [], (List.append_nil _).symm, iff_of_true rfl trivial⟩
  | cons a as ih =>
    obtain ⟨c₁, hact, hrest⟩ := Option.bind_eq_some_iff.mp hrun
    obtain ⟨hcancelled₁, more₁, hcalls₁, hdry₁⟩ := act_calls hcancelled hact
    obtain ⟨hcancelled', more, hcalls, hdry⟩ := ih hcancelled₁ hrest
    refine ⟨hcancelled', more₁ ++ more, by rw [hcalls, hcalls₁, List.append_assoc], ?_⟩
    rw [List.append_eq_nil_iff, hdry₁, hdry, DryRun]
    refine and_congr_right fun _ => ⟨?_, fun h => h c₁ hact⟩
    intro h c₂ hact₂
    obtain rfl := Option.some.inj (hact.symm.trans hact₂)
    exact h

/-- Before the reset every step is dry. -/
theorem dry_of_not_cancelled (hopen : c.cancelled = none) (a : Act Row) : q.Dry c a := by
  cases a with
  | reset => trivial
  | step x =>
    cases x with
    | runNext => exact fun hne => absurd hopen hne
    | insertRow => trivial
    | updateRow => trivial
    | deleteRow => trivial

theorem act_not_cancelled {a : Act Row} (hopen : c.cancelled = none) (hact : q.act c a = some c') :
    c'.cancelled = none ∨ c'.cancelled = some c'.select.calls := by
  cases a with
  | reset =>
    obtain rfl := Option.some.inj hact
    rw [cancel, hopen]
    exact .inr rfl
  | step x =>
    left
    cases x with
    | runNext =>
      obtain ⟨s', -, rfl⟩ := Option.map_eq_some_iff.mp hact
      exact hopen
    | insertRow target oid row =>
      obtain rfl := Option.some.inj hact
      exact hopen
    | updateRow target old new row =>
      obtain rfl := Option.some.inj hact
      exact hopen
    | deleteRow target oid =>
      obtain rfl := Option.some.inj hact
      exact hopen

theorem silent_iff_dryRun {as : List (Act Row)} (hopen : c.cancelled = none)
    (hrun : q.actAll c as = some c') : Silent c' ↔ q.DryRun c as := by
  induction as generalizing c with
  | nil =>
    obtain rfl := Option.some.inj hrun
    refine iff_of_true ?_ trivial
    intro calls hcancelled
    rw [hopen] at hcancelled
    cases hcancelled
  | cons a as ih =>
    obtain ⟨c₁, hact, hrest⟩ := Option.bind_eq_some_iff.mp hrun
    have htail : Silent c' ↔ q.DryRun c₁ as := by
      rcases act_not_cancelled hopen hact with hopen₁ | hcancelled₁
      · exact ih hopen₁ hrest
      · obtain ⟨hcancelled', more, hcalls, hdry⟩ := calls_cancelled hcancelled₁ hrest
        rw [← hdry, Silent, hcancelled', hcalls]
        simp
    rw [htail, DryRun]
    constructor
    · intro h
      refine ⟨dry_of_not_cancelled hopen a, fun c₂ hact₂ => ?_⟩
      obtain rfl := Option.some.inj (hact.symm.trans hact₂)
      exact h
    · rintro ⟨-, h⟩
      exact h c₁ hact

/-- Nothing is queued behind the reset. -/
theorem queue_cancelled {a : Act Row} (hcancelled : c.cancelled ≠ none) (hdeaf : c.listening = false)
    (hempty : c.select.queue = []) (hact : q.act c a = some c') :
    c'.cancelled ≠ none ∧ c'.listening = false ∧ c'.select.queue = [] := by
  cases a with
  | reset =>
    obtain rfl := Option.some.inj hact
    obtain ⟨calls, hcalls⟩ := Option.ne_none_iff_exists'.mp hcancelled
    have hsame : cancel c = c := by rw [cancel, hcalls]
    rw [hsame]
    exact ⟨hcancelled, hdeaf, hempty⟩
  | step x =>
    cases x with
    | runNext =>
      obtain ⟨s', hrun, rfl⟩ := Option.map_eq_some_iff.mp hact
      rw [runNext, hempty] at hrun
      obtain rfl := Option.some.inj hrun
      exact ⟨hcancelled, hdeaf, hempty⟩
    | insertRow target oid row =>
      obtain rfl := Option.some.inj hact
      exact ⟨hcancelled, hdeaf, by rw [hdeaf]; exact hempty⟩
    | updateRow target old new row =>
      obtain rfl := Option.some.inj hact
      exact ⟨hcancelled, hdeaf, by rw [hdeaf]; exact hempty⟩
    | deleteRow target oid =>
      obtain rfl := Option.some.inj hact
      exact ⟨hcancelled, hdeaf, by rw [hdeaf]; exact hempty⟩

/-- A reset that finds no callback queued is final. -/
theorem dryRun_of_queue_empty {as : List (Act Row)} (hcancelled : c.cancelled ≠ none)
    (hdeaf : c.listening = false) (hempty : c.select.queue = []) : q.DryRun c as := by
  induction as generalizing c with
  | nil => trivial
  | cons a as ih =>
    constructor
    · cases a with
      | reset => trivial
      | step x =>
        cases x with
        | runNext =>
          intro _ entry hentry
          rw [hempty] at hentry
          cases hentry
        | insertRow => trivial
        | updateRow => trivial
        | deleteRow => trivial
    · intro c' hact
      obtain ⟨hcancelled', hdeaf', hempty'⟩ := queue_cancelled hcancelled hdeaf hempty hact
      exact ih hcancelled' hdeaf' hempty'

/-- In every run, with the reset anywhere in it: the handler is not called after the reset if and only if
every callback that runs after it has nothing to report. -/
theorem silent_after_reset (q : Select Row) (tables : String → Oid → Option Row) (oids : List Oid)
    (as : List (Act Row)) (c : Operation Row) (hrun : q.actAll (operation tables oids) as = some c) :
    Silent c ↔ q.DryRun (operation tables oids) as :=
  silent_iff_dryRun rfl hrun

/-- The row at 5 is changed and reported, and then the operation is reset, and more changes are made. -/
def drainedRun : List (Act Bool) :=
  [.step (.updateRow "test" 5 5 true), .step .runNext, .reset, .step (.deleteRow "test" 3),
    .step (.insertRow "test" 9 true), .step .runNext]

theorem drainedRun_silent :
    ∃ c, flagged.actAll (operation twoRows [3]) drainedRun = some c ∧
      c.select.calls = [⟨.insert, 3⟩, ⟨.insert, 5⟩] ∧ Silent c := by
  obtain ⟨c, hrun⟩ : ∃ c, flagged.actAll (operation twoRows [3]) drainedRun = some c := ⟨_, rfl⟩
  have hsilent := (silent_after_reset flagged twoRows [3] drainedRun c hrun).mpr ?_
  · obtain rfl := Option.some.inj hrun
    exact ⟨_, rfl, by decide, hsilent⟩
  · refine ⟨trivial, fun c₁ h₁ => ⟨fun hne => ?_, fun c₂ h₂ => ⟨trivial, fun c₃ h₃ => ?_⟩⟩⟩
    · obtain rfl := Option.some.inj h₁
      exact absurd rfl hne
    · obtain rfl := Option.some.inj h₁
      obtain rfl := Option.some.inj h₂
      obtain rfl := Option.some.inj h₃
      exact dryRun_of_queue_empty (by decide) rfl rfl

/-- A row is deleted, the operation is reset, and then the handler is told of the row. -/
theorem reset_between :
    ∃ c, flagged.actAll (operation twoRows [3]) [.step (.deleteRow "test" 3), .reset, .step .runNext] =
        some c ∧ c.cancelled = some [⟨.insert, 3⟩] ∧ c.select.calls = [⟨.insert, 3⟩, ⟨.remove, 3⟩] ∧
      ¬Silent c := by
  refine ⟨_, rfl, by decide, by decide, ?_⟩
  intro h
  exact absurd (h [⟨.insert, 3⟩] (by decide)) (by decide)

end Select

end Nodeoze.Database
