import Nodeoze.Database.StatementSafety

/-!
# Closing a database with statements

sqlite does not close a connection that has a statement which is not finalized.  `close` gives up the
handles of `m_prepared_statement_map`, but not those of `m_prepared_statements`, which nothing ever takes
out: what `prepare` has returned keeps the connection open until a client finalizes it on demand.
`restore` does not even give up the map.
-/

namespace Nodeoze.Database.Statements

open RefHeap Runs

variable {junk : Nat → Bool} {s s' : State} {c : Nat}

theorem sqlite3Close_cases (s : State) (c : Nat) : sqlite3Close s c = 0 ∨ sqlite3Close s c = SQLITE_BUSY := by
  rw [sqlite3Close]
  split_ifs
  · exact .inr rfl
  · exact .inl rfl

theorem Owned.sqlite3Close_iff (o : Safe s) (c : Nat) :
    sqlite3Close s c = SQLITE_BUSY ↔ ∃ n, s.stmts n = some c := by
  have hne : (0 : Int32) ≠ SQLITE_BUSY := by decide
  have hany : (List.range s.nextStmt).any (fun n => s.stmts n == some c) = true ↔ ∃ n, s.stmts n = some c := by
    rw [List.any_eq_true]
    constructor
    · rintro ⟨n, -, hn⟩
      exact ⟨n, beq_iff_eq.mp hn⟩
    · rintro ⟨n, hn⟩
      refine ⟨n, List.mem_range.mpr ?_, beq_iff_eq.mpr hn⟩
      by_contra hge
      rw [o.fresh (Nat.le_of_not_lt hge)] at hn
      contradiction
  rw [← hany, sqlite3Close]
  split_ifs with h
  · simp [h]
  · simp [h, hne]

/-- The statements that are left when the map is cleared. -/
theorem Inv.left_iff (h : Inv [] s) (hreset : Statements.resetAllPrepared s = .ok s') (c : Nat) :
    (∃ n, s'.stmts n = some c) ↔ ∃ i n, s.Owns i n ∧ s.stmts n = some c ∧ i ∉ s.slots := by
  obtain ⟨t, hreset', hinv, hhandles, hgone⟩ := h.resetAllPrepared
  obtain rfl : t = s' := Except.ok.inj (hreset'.symm.trans hreset)
  have hkeeps : Keeps (· ∈ s.slots) Nothing Nothing s t :=
    ⟨hhandles.keeps.nowhere, hhandles.keeps.on, hhandles.keeps.stmts⟩
  constructor
  · rintro ⟨n, hn⟩
    obtain ⟨b, u, hu, hs⟩ := hinv.safe.owned (n := n) (by rw [hn]; simp)
    obtain ⟨i, hi⟩ := hinv.safe.counted.held b u hu
    have hslot : i ∉ s.slots := by
      intro hmem
      rw [hgone i hmem] at hi
      contradiction
    have hb : s.heap.blockOf i = some b := by rw [← hkeeps.blockOf h.safe.counted hslot, hi]
    obtain ⟨v, hv⟩ := h.safe.counted.tag hb
    obtain ⟨u', -, hu', -, hstmt⟩ := hkeeps.on hslot hb hv
    obtain rfl : u = u' := Option.some.inj (hu.symm.trans hu')
    have hown : s.Owns i n := ⟨b, v, hb, hv, (hstmt n id).mp hs⟩
    exact ⟨i, n, hown, (hkeeps.stmts hslot id hown).symm.trans hn, hslot⟩
  · rintro ⟨i, n, hown, hn, hslot⟩
    exact ⟨n, (hkeeps.stmts hslot id hown).trans hn⟩

/-- With a call of `prepare` that took the statement of the map, the connection closes. -/
example : (run (step fun _ => false) create
    [.openDatabase "db" ⟨0, true⟩ 0, .call "SELECT 1" ⟨0, false⟩ ⟨0, false⟩, .returns, .close]).map State.db
      = some none := by decide

/-- An entry of `m_prepared_statements` holds the statement. -/
structure Held (n c : Nat) (s : State) : Prop where
  inv : Inv [] s
  conn : s.stmts n = some c
  entry : ∃ j ∈ s.prepared, s.Owns j n

theorem Held.step {n : Nat} {a : Act} (h : Held n c s) (hkeep : ¬Finalizes s a n)
    (hstep : step junk s a = some s') : Held n c s' := by
  obtain ⟨hinv, hstays⟩ := h.inv.fine_step hstep
  obtain ⟨j, hj, hown⟩ := h.entry
  obtain ⟨hown', hstmts⟩ := hstays.owns hj hkeep hown
  exact ⟨hinv, hstmts.trans h.conn, j, hstays.mem hj, hown'⟩

theorem Held.busy {n : Nat} (h : Held n c s) : sqlite3Close s c = SQLITE_BUSY :=
  (h.inv.safe.sqlite3Close_iff c).mpr ⟨n, h.conn⟩

/-- From when `prepare` has returned a statement, and as long as no client finalizes it on demand, the
connection is not closed, neither by `close` nor by `restore`, whatever becomes of the handles. -/
theorem prepared_keeps_open {as bs : List Act} {r : Compiled} {t : State}
    (h : run (step junk) create as = some s) (hdb : s.db = some c) (hcode : r.code = 0) (hblank : r.blank = false)
    (hrun : run (step junk) (prepare junk s r) bs = some t)
    (hkeep : Meets (step junk) (fun u a => ¬Finalizes u a s.nextStmt) (prepare junk s r) bs) :
    t.stmts s.nextStmt = some c ∧
      (t.db = some c → (∃ t', close t = .ok (SQLITE_BUSY, t') ∧ t'.db = some c) ∧
        ∀ r' hook, restore t true r' hook = .ok (SQLITE_BUSY, t)) := by
  have hinv := inv_run h
  obtain ⟨hprepare, -, hqueued⟩ := hinv.prepare (N := Nothing) junk r
  obtain ⟨j, hj, hown, hconn⟩ := hqueued c hdb hcode hblank
  have hstart : Held s.nextStmt c (prepare junk s r) := ⟨hprepare, hconn, j, hj, hown⟩
  have hheld : Held s.nextStmt c t :=
    invariant_of_meets (fun _ _ _ hs hcond hstep => hs.step hcond hstep) hkeep hrun hstart
  refine ⟨hheld.conn, fun hopen => ⟨?_, fun r' hook => ?_⟩⟩
  · obtain ⟨t₁, hreset, hinv₁, hhandles, -⟩ := (hheld.inv.fields t.db t.nextDb 0).resetAllPrepared
    have hstays := (hheld.inv.fields t.db t.nextDb 0).stays_resetAllPrepared (N := Nothing) hhandles
    obtain ⟨l, hl, hown'⟩ := hheld.entry
    obtain ⟨hown₁, hstmts⟩ := hstays.owns hl id hown'
    have hheld₁ : Held s.nextStmt c t₁ := ⟨hinv₁, hstmts.trans hheld.conn, l, hstays.mem hl, hown₁⟩
    have hdb₁ : t₁.db = some c := by
      rw [hhandles.rest]
      exact hopen
    have hreset' : resetAllPrepared { t with err := 0 } = .ok t₁ := hreset
    have hne : SQLITE_BUSY ≠ 0 := by decide
    refine ⟨{ t₁ with err := SQLITE_BUSY }, ?_, hdb₁⟩
    rw [close, hreset']
    simp only [bind, Except.bind, hdb₁, hheld₁.busy, if_neg hne]
  · have hne : SQLITE_BUSY ≠ 0 := by decide
    rw [restore, hopen]
    simp only [if_true, hheld.busy, ne_eq, hne, not_false_eq_true]

def opened : State := { create with db := some 0, nextDb := 1 }

theorem droppedStatement_keeps_open : ∃ t,
    run (step fun _ => false) (prepare (fun _ => false) opened ⟨0, false⟩) [.destroy 0, .close] = some t ∧
    t.stmts 0 = some 0 ∧
      (t.db = some 0 → (∃ t', close t = .ok (SQLITE_BUSY, t') ∧ t'.db = some 0) ∧
        ∀ r' hook, restore t true r' hook = .ok (SQLITE_BUSY, t)) := by
  have hopened : run (step fun _ => false) create [.openDatabase "db" ⟨0, true⟩ 0] = some opened := rfl
  obtain ⟨t, ht⟩ := Option.isSome_iff_exists.mp (show (run (step fun _ => false)
    (prepare (fun _ => false) opened ⟨0, false⟩) [.destroy 0, .close]).isSome = true by decide)
  refine ⟨t, ht, prepared_keeps_open hopened rfl rfl rfl ht ?_⟩
  refine ⟨?_, fun _ _ => ⟨?_, fun _ _ => trivial⟩⟩
  · rintro ⟨i, hi, -⟩
    contradiction
  · rintro ⟨i, hi, -⟩
    contradiction

end Nodeoze.Database.Statements
