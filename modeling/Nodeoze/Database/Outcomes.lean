import Mathlib.Data.List.Basic
import Mathlib.Tactic.Common

/-!
# What transactions and backups report

`transaction`, `backup` and `backup_database` make several calls of SQLite, any of which may fail, and
return one error.  What SQLite answers is a parameter: any answer to any call, after any calls before.

The result of `COMMIT` is not looked at, nor are the results of the step and of `finish` in `backup`.
In `backup_database` whatever has gone wrong is forgotten when the target is closed.
-/

namespace Nodeoze.Database.Outcomes

/-- A call of SQLite, or of the function that is given to `transaction`. -/
inductive Call
  | open_
  | exec (sql : String)
  | func
  | backupInit
  | errcode
  | step (nPage : Int32)
  | finish
  | close
  deriving DecidableEq, Repr

/-- The calls so far, with their results.  The result of `sqlite3_backup_init` is a pointer. -/
abbrev Log := List (Call × Int32)

abbrev Sqlite := Log → Call → Int32

def SQLITE_BUSY : Int32 := 5

def SQLITE_LOCKED : Int32 := 6

def SQLITE_DONE : Int32 := 101

section Operations

variable (sqlite : Sqlite)

def call (log : Log) (c : Call) : Int32 × Log := (sqlite log c, log ++ [(c, sqlite log c)])

def startTransaction (log : Log) : Int32 × Log := call sqlite log (.exec "BEGIN TRANSACTION;")

def endTransaction (log : Log) : Int32 × Log := call sqlite log (.exec "COMMIT;")

def cancelTransaction (log : Log) : Int32 × Log := call sqlite log (.exec "ROLLBACK;")

/-- `transaction( func )` -/
def transaction : Int32 × Log :=
  let (err, log) := startTransaction sqlite []
  if err ≠ 0 then (err, log)
  else
    let (err, log) := call sqlite log .func
    if err = 0 then (err, (endTransaction sqlite log).2)
    else (err, (cancelTransaction sqlite log).2)

/-- From where on `backup` closes the target. -/
def closing (ret : Int32) (log : Log) : Int32 × Log := (ret, (call sqlite log .close).2)

/-- The statements of the hook of `backup`, if there is one. -/
def runHook (hook : Option String) (log : Log) : Int32 × Log :=
  match hook with
  | some s => call sqlite log (.exec s)
  | none => (0, log)

/-- `backup( dest, hook )`; the target is closed even where it could not be opened. -/
def backup (hook : Option String) : Int32 × Log :=
  let (ret, log) := call sqlite [] .open_
  if ret ≠ 0 then closing sqlite ret log
  else
    let (ret, log) := runHook sqlite hook log
    if ret ≠ 0 then closing sqlite ret log
    else
      let (backup, log) := call sqlite log .backupInit
      if backup = 0 then
        let (ret, log) := call sqlite log .errcode
        closing sqlite ret log
      else
        let (_, log) := call sqlite log (.step (-1))
        let (_, log) := call sqlite log .finish
        closing sqlite ret log

/-- The statements, up to one that fails. -/
def execAll : List String → Log → Int32 × Log
  | [], log => (0, log)
  | statement :: statements, log =>
    let (ret, log) := call sqlite log (.exec statement)
    if ret ≠ 0 then (ret, log) else execAll statements log

/-- A step after which the loop goes on. -/
def again (ret : Int32) : Bool := ret = 0 || ret = SQLITE_BUSY || ret = SQLITE_LOCKED

/-- The loop over the steps, which need not end.  It sleeps in between. -/
def stepLoop (stepSize : Int32) : Nat → Log → Option (Int32 × Log)
  | 0, _ => none
  | fuel + 1, log =>
    let (ret, log) := call sqlite log (.step stepSize)
    if again ret then stepLoop stepSize fuel log else some (ret, log)

/-- `backup_database( backup_path, statements, step_size, sleep_ms, exiting )`.  What `ret` is before
`sqlite3_close` does not matter. -/
def backupDatabase (statements : List String) (stepSize : Int32) (fuel : Nat) : Option (Int32 × Log) :=
  let (ret, log) := call sqlite [] .open_
  if ret ≠ 0 then some (ret, log)
  else
    let (ret, log) := execAll sqlite statements log
    if ret ≠ 0 then some (call sqlite log .close)
    else
      let (backupInfo, log) := call sqlite log .backupInit
      if backupInfo = 0 then some (call sqlite log .close)
      else
        (stepLoop sqlite stepSize fuel log).map fun (_, log) =>
          let (_, log) := call sqlite log .finish
          call sqlite log .close

end Operations

/-! ## What success means -/

/-- The call has a result that is no failure; a busy step is made again. -/
def Call.succeeded : Call → Int32 → Bool
  | .open_, ret => ret = 0
  | .exec _, ret => ret = 0
  | .func, ret => ret = 0
  | .backupInit, backup => backup ≠ 0
  | .step _, ret => again ret || ret = SQLITE_DONE
  | .finish, ret => ret = 0
  | .errcode, _ => true
  | .close, _ => true

/-- No call has failed. -/
def Clean (log : Log) : Prop := ∀ e ∈ log, e.1.succeeded e.2 = true

instance (log : Log) : Decidable (Clean log) := inferInstanceAs (Decidable (∀ e ∈ log, _))

/-- `transaction` reports no error only if all has succeeded, and rolls back after a failure. -/
structure TransactionReports (r : Int32 × Log) : Prop where
  success : r.1 = 0 → (.exec "BEGIN TRANSACTION;", 0) ∈ r.2 ∧ (.func, 0) ∈ r.2 ∧ (.exec "COMMIT;", 0) ∈ r.2
  rollback : ∀ ret, ret ≠ 0 → (.func, ret) ∈ r.2 ∨ (.exec "COMMIT;", ret) ∈ r.2 →
    ∃ ret', (.exec "ROLLBACK;", ret') ∈ r.2

/-- A backup reports no error only if opening the target, the statements, the steps and `finish` have
succeeded. -/
def BackupReports (statements : List String) (r : Int32 × Log) : Prop :=
  r.1 = 0 → Clean r.2 ∧ (.open_, 0) ∈ r.2 ∧ (∀ s ∈ statements, (.exec s, 0) ∈ r.2) ∧
    (∃ nPage, (.step nPage, SQLITE_DONE) ∈ r.2) ∧ (.finish, 0) ∈ r.2

/-! ## Transactions -/

variable (sqlite : Sqlite)

/-- What a transaction comes to. -/
theorem transaction_cases :
    (∃ ret, ret ≠ 0 ∧ transaction sqlite = (ret, [(.exec "BEGIN TRANSACTION;", ret)])) ∨
    (∃ ret ret', ret ≠ 0 ∧ transaction sqlite =
      (ret, [(.exec "BEGIN TRANSACTION;", 0), (.func, ret), (.exec "ROLLBACK;", ret')])) ∨
    ∃ ret, transaction sqlite =
      (0, [(.exec "BEGIN TRANSACTION;", 0), (.func, 0), (.exec "COMMIT;", ret)]) := by
  unfold transaction startTransaction endTransaction cancelTransaction
  simp only [call, List.nil_append]
  by_cases hbegin : sqlite [] (.exec "BEGIN TRANSACTION;") = 0
  · right
    simp only [hbegin, ne_eq, not_true, if_false]
    by_cases hfunc : sqlite [(.exec "BEGIN TRANSACTION;", 0)] .func = 0
    · right
      simp only [hfunc, if_true]
      exact ⟨_, rfl⟩
    · left
      simp only [hfunc, if_false]
      exact ⟨_, _, hfunc, rfl⟩
  · left
    simp only [hbegin, ne_eq, not_false_eq_true, if_true]
    exact ⟨_, hbegin, rfl⟩

theorem transactionReports_iff :
    TransactionReports (transaction sqlite) ↔
      ∀ ret, (.exec "COMMIT;", ret) ∈ (transaction sqlite).2 → ret = 0 := by
  rcases transaction_cases sqlite with ⟨ret, hret, h⟩ | ⟨ret, ret', hret, h⟩ | ⟨ret, h⟩
  · rw [h]
    refine iff_of_true ⟨fun hzero => absurd hzero hret, ?_⟩ ?_
    · simp
    · simp
  · rw [h]
    refine iff_of_true ⟨fun hzero => absurd hzero hret, fun _ _ _ => ⟨ret', by simp⟩⟩ ?_
    simp
  · rw [h]
    constructor
    · intro hreports r hr
      have hcommit : (.exec "COMMIT;", 0) ∈ [(Call.exec "BEGIN TRANSACTION;", 0), (.func, 0),
        (.exec "COMMIT;", ret)] := (hreports.success rfl).2.2
      simp at hr hcommit
      rw [hr, hcommit]
    · intro hcommit
      obtain rfl := hcommit ret (by simp)
      refine ⟨fun _ => by simp, fun r hr => ?_⟩
      simp [hr]

/-! ## Statements and steps -/

/-- Statements that have been executed. -/
def executed (statements : List String) : Log := statements.map fun s => (.exec s, 0)

@[simp] theorem clean_nil : Clean [] := by
  intro e he
  cases he

@[simp] theorem clean_cons (e : Call × Int32) (log : Log) :
    Clean (e :: log) ↔ e.1.succeeded e.2 = true ∧ Clean log := List.forall_mem_cons

@[simp] theorem clean_append (log log' : Log) : Clean (log ++ log') ↔ Clean log ∧ Clean log' :=
  List.forall_mem_append

@[simp] theorem clean_executed (statements : List String) : Clean (executed statements) := by
  intro e he
  obtain ⟨s, -, rfl⟩ := List.mem_map.mp he
  rfl

@[simp] theorem mem_executed (statements : List String) (c : Call) (ret : Int32) :
    (c, ret) ∈ executed statements ↔ ret = 0 ∧ ∃ s ∈ statements, c = .exec s := by
  unfold executed
  rw [List.mem_map]
  constructor
  · rintro ⟨s, hs, h⟩
    obtain ⟨rfl, rfl⟩ := Prod.mk.inj h
    exact ⟨rfl, s, hs, rfl⟩
  · rintro ⟨rfl, s, hs, rfl⟩
    exact ⟨s, hs, rfl⟩

/-- The statements are executed up to one that fails. -/
theorem execAll_cases (statements : List String) (log : Log) :
    (∃ ran s ret, ret ≠ 0 ∧
      execAll sqlite statements log = (ret, log ++ executed ran ++ [(.exec s, ret)])) ∨
    execAll sqlite statements log = (0, log ++ executed statements) := by
  induction statements generalizing log with
  | nil =>
    right
    simp [execAll, executed]
  | cons statement statements ih =>
    simp only [execAll, call]
    by_cases hret : sqlite log (.exec statement) = 0
    · simp only [hret, ne_eq, not_true, if_false]
      rcases ih (log ++ [(.exec statement, 0)]) with ⟨ran, s, ret, hfail, h⟩ | h
      · left
        refine ⟨statement :: ran, s, ret, hfail, ?_⟩
        rw [h]
        simp [executed]
      · right
        rw [h]
        simp [executed]
    · left
      refine ⟨[], statement, _, hret, ?_⟩
      simp [hret, executed]

/-- The hook of `backup` is a list of at most one statement. -/
theorem runHook_eq (hook : Option String) (log : Log) :
    runHook sqlite hook log = execAll sqlite hook.toList log := by
  cases hook with
  | none => rfl
  | some s =>
    simp only [runHook, Option.toList_some, execAll, call]
    by_cases hret : sqlite log (.exec s) = 0
    · simp [hret]
    · simp [hret]

theorem stepLoop_succ (stepSize : Int32) (fuel : Nat) (log : Log) :
    stepLoop sqlite stepSize (fuel + 1) log =
      if again (sqlite log (.step stepSize)) = true then
        stepLoop sqlite stepSize fuel (log ++ [(.step stepSize, sqlite log (.step stepSize))])
      else some (sqlite log (.step stepSize), log ++ [(.step stepSize, sqlite log (.step stepSize))]) := rfl

/-- The loop ends with a step that has not to be made again. -/
theorem stepLoop_ends {stepSize : Int32} {fuel : Nat} {log : Log} {r : Int32 × Log}
    (h : stepLoop sqlite stepSize fuel log = some r) :
    ∃ rets : List Int32, (∀ ret ∈ rets, again ret = true) ∧ again r.1 = false ∧
      r.2 = log ++ rets.map (fun ret => (.step stepSize, ret)) ++ [(.step stepSize, r.1)] := by
  induction fuel generalizing log with
  | zero => cases h
  | succ fuel ih =>
    rw [stepLoop_succ] at h
    by_cases hagain : again (sqlite log (.step stepSize)) = true
    · rw [if_pos hagain] at h
      obtain ⟨rets, hrets, hlast, hlog⟩ := ih h
      refine ⟨sqlite log (.step stepSize) :: rets, ?_, hlast, ?_⟩
      · exact List.forall_mem_cons.mpr ⟨hagain, hrets⟩
      · rw [hlog]
        simp
    · rw [if_neg hagain] at h
      obtain rfl := Option.some.inj h
      refine ⟨[], by simp, Bool.eq_false_iff.mpr hagain, ?_⟩
      simp

theorem clean_retried (stepSize : Int32) {rets : List Int32} (hrets : ∀ ret ∈ rets, again ret = true) :
    Clean (rets.map fun ret => (.step stepSize, ret)) := by
  intro e he
  obtain ⟨ret, hret, rfl⟩ := List.mem_map.mp he
  simp [Call.succeeded, hrets ret hret]

/-! ## Backups -/

theorem backup_cases (hook : Option String) :
    (∃ ret c, ret ≠ 0 ∧ backup sqlite hook = (ret, [(.open_, ret), (.close, c)])) ∨
    (∃ ran s ret c, ret ≠ 0 ∧ backup sqlite hook =
      (ret, (.open_, 0) :: executed ran ++ [(.exec s, ret), (.close, c)])) ∨
    (∃ ret c, backup sqlite hook =
      (ret, (.open_, 0) :: executed hook.toList ++ [(.backupInit, 0), (.errcode, ret), (.close, c)])) ∨
    ∃ p ret f c, p ≠ 0 ∧ backup sqlite hook =
      (0, (.open_, 0) :: executed hook.toList ++
        [(.backupInit, p), (.step (-1), ret), (.finish, f), (.close, c)]) := by
  unfold backup closing
  simp only [runHook_eq, call, List.nil_append]
  by_cases hopen : sqlite [] .open_ = 0
  · right
    simp only [hopen, ne_eq, not_true, if_false]
    rcases execAll_cases sqlite hook.toList [(.open_, 0)] with ⟨ran, s, ret, hfail, h⟩ | h
    · left
      simp only [h, hfail, not_false_eq_true, if_true]
      simp only [List.append_assoc, List.cons_append, List.nil_append]
      exact ⟨ran, s, ret, _, hfail, rfl⟩
    · right
      simp only [h, not_true, if_false]
      by_cases hinit : sqlite ([(.open_, 0)] ++ executed hook.toList) .backupInit = 0
      · left
        simp only [hinit, if_true]
        simp only [List.append_assoc, List.cons_append, List.nil_append]
        exact ⟨_, _, rfl⟩
      · right
        simp only [hinit, if_false]
        simp only [List.append_assoc, List.cons_append, List.nil_append] at hinit ⊢
        exact ⟨_, _, _, _, hinit, rfl⟩
  · left
    simp only [hopen, ne_eq, not_false_eq_true, if_true]
    exact ⟨_, _, hopen, rfl⟩

theorem backupReports_iff (hook : Option String) :
    BackupReports hook.toList (backup sqlite hook) ↔
      (∀ ret, (.errcode, ret) ∈ (backup sqlite hook).2 → ret ≠ 0) ∧
        (∀ nPage ret, (.step nPage, ret) ∈ (backup sqlite hook).2 → ret = SQLITE_DONE) ∧
        ∀ ret, (.finish, ret) ∈ (backup sqlite hook).2 → ret = 0 := by
  unfold BackupReports
  rcases backup_cases sqlite hook with
    ⟨ret, c, hret, h⟩ | ⟨ran, s, ret, c, hret, h⟩ | ⟨ret, c, h⟩ | ⟨p, ret, f, c, hp, h⟩
  · rw [h]
    exact iff_of_true (fun hzero => absurd hzero hret) (by simp)
  · rw [h]
    exact iff_of_true (fun hzero => absurd hzero hret) (by simp)
  · rw [h]
    simp [Call.succeeded]
  · rw [h]
    have hcodes : ((again ret = true ∨ ret = SQLITE_DONE) ∧ f = 0) ∧ SQLITE_DONE = ret ∧ 0 = f ↔
        ret = SQLITE_DONE ∧ f = 0 :=
      ⟨fun hall => ⟨hall.2.1.symm, hall.1.2⟩, fun hall => ⟨⟨.inr hall.1, hall.2⟩, hall.1.symm, hall.2.symm⟩⟩
    simpa [Call.succeeded, hp] using hcodes

theorem backupDatabase_cases {statements : List String} {stepSize : Int32} {fuel : Nat} {r : Int32 × Log}
    (h : backupDatabase sqlite statements stepSize fuel = some r) :
    (∃ ret, ret ≠ 0 ∧ r = (ret, [(.open_, ret)])) ∨
    (∃ ran s ret c, ret ≠ 0 ∧ r = (c, (.open_, 0) :: executed ran ++ [(.exec s, ret), (.close, c)])) ∨
    (∃ c, r = (c, (.open_, 0) :: executed statements ++ [(.backupInit, 0), (.close, c)])) ∨
    ∃ (p : Int32) (rets : List Int32) (ret f c : Int32), p ≠ 0 ∧ (∀ ret ∈ rets, again ret = true) ∧
      again ret = false ∧ r = (c, (.open_, 0) :: executed statements ++ (.backupInit, p) ::
        rets.map (fun ret => (.step stepSize, ret)) ++ [(.step stepSize, ret), (.finish, f), (.close, c)]) := by
  unfold backupDatabase at h
  simp only [call, List.nil_append] at h
  by_cases hopen : sqlite [] .open_ = 0
  · right
    simp only [hopen, ne_eq, not_true, if_false] at h
    rcases execAll_cases sqlite statements [(.open_, 0)] with ⟨ran, s, ret, hfail, hexec⟩ | hexec
    · left
      simp only [hexec, hfail, not_false_eq_true, if_true, List.append_assoc, List.cons_append,
        List.nil_append, Option.some.injEq] at h
      exact ⟨ran, s, ret, _, hfail, h.symm⟩
    · right
      simp only [hexec, not_true, if_false] at h
      by_cases hinit : sqlite ([(.open_, 0)] ++ executed statements) .backupInit = 0
      · left
        simp only [hinit, if_true, Option.some.injEq] at h
        simp only [List.append_assoc, List.cons_append, List.nil_append] at h
        exact ⟨_, h.symm⟩
      · right
        simp only [hinit, if_false] at h
        obtain ⟨r', hloop, rfl⟩ := Option.map_eq_some_iff.mp h
        obtain ⟨rets, hrets, hlast, hlog⟩ := stepLoop_ends sqlite hloop
        simp only [hlog, List.append_assoc, List.cons_append, List.nil_append] at hinit ⊢
        exact ⟨_, rets, r'.1, _, _, hinit, hrets, hlast, rfl⟩
  · left
    simp only [hopen, ne_eq, not_false_eq_true, if_true, Option.some.injEq] at h
    exact ⟨_, hopen, h.symm⟩

theorem backupDatabaseReports_iff {statements : List String} {stepSize : Int32} {fuel : Nat}
    {r : Int32 × Log} (h : backupDatabase sqlite statements stepSize fuel = some r) :
    BackupReports statements r ↔
      (∃ ret, ret ≠ 0 ∧ (.open_, ret) ∈ r.2) ∨ (∃ ret, ret ≠ 0 ∧ (.close, ret) ∈ r.2) ∨ Clean r.2 := by
  unfold BackupReports
  rcases backupDatabase_cases sqlite h with
    ⟨ret, hret, rfl⟩ | ⟨ran, s, ret, c, hret, rfl⟩ | ⟨c, rfl⟩ | ⟨p, rets, ret, f, c, hp, hrets, hlast, rfl⟩
  · exact iff_of_true (fun hzero => absurd hzero hret) (.inl ⟨ret, hret, by simp⟩)
  · simp [Call.succeeded, hret]
  · simp [Call.succeeded]
  · have hretried := clean_retried stepSize hrets
    have hfinish : (∃ nPage, (SQLITE_DONE ∈ rets ∧ stepSize = nPage) ∨ nPage = stepSize ∧ SQLITE_DONE = ret) ∧
        0 = f ↔ SQLITE_DONE = ret ∧ 0 = f := by
      constructor
      · rintro ⟨⟨nPage, ⟨hdone, -⟩ | ⟨-, hret⟩⟩, hf⟩
        · exact absurd (hrets _ hdone) (by decide)
        · exact ⟨hret, hf⟩
      · rintro ⟨hret, hf⟩
        exact ⟨⟨stepSize, .inr ⟨rfl, hret⟩⟩, hf⟩
    have hcodes : (c = 0 → (ret = SQLITE_DONE ∧ f = 0) ∧ SQLITE_DONE = ret ∧ 0 = f) ↔
        ¬c = 0 ∨ ret = SQLITE_DONE ∧ f = 0 := by
      rw [imp_iff_not_or, eq_comm (a := SQLITE_DONE), eq_comm (a := 0), and_self_iff]
    simpa [Call.succeeded, hp, hretried, hlast, hfinish] using hcodes

/-! ## Reporting success -/

/-- Success is reported only where all has succeeded: by `transaction` if and only if `COMMIT` does not
fail, by `backup` if and only if the error it asks for is one and the step and `finish` do what they
should, and by `backup_database` if and only if the target cannot be opened, or cannot be closed, or
nothing fails at all. -/
theorem success_reported_iff (hook : Option String) (statements : List String) (stepSize : Int32) :
    (TransactionReports (transaction sqlite) ↔
      ∀ ret, (.exec "COMMIT;", ret) ∈ (transaction sqlite).2 → ret = 0) ∧
    (BackupReports hook.toList (backup sqlite hook) ↔
      (∀ ret, (.errcode, ret) ∈ (backup sqlite hook).2 → ret ≠ 0) ∧
        (∀ nPage ret, (.step nPage, ret) ∈ (backup sqlite hook).2 → ret = SQLITE_DONE) ∧
        ∀ ret, (.finish, ret) ∈ (backup sqlite hook).2 → ret = 0) ∧
    ∀ fuel r, backupDatabase sqlite statements stepSize fuel = some r →
      (BackupReports statements r ↔
        (∃ ret, ret ≠ 0 ∧ (.open_, ret) ∈ r.2) ∨ (∃ ret, ret ≠ 0 ∧ (.close, ret) ∈ r.2) ∨ Clean r.2) :=
  ⟨transactionReports_iff sqlite, backupReports_iff sqlite hook,
    fun _ _ h => backupDatabaseReports_iff sqlite h⟩

/-- Everything succeeds. -/
def healthy : Sqlite
  | _, .backupInit => 1
  | _, .step _ => SQLITE_DONE
  | _, _ => 0

theorem healthy_reported :
    (backupDatabase healthy ["PRAGMA synchronous=OFF;"] 5 1).isSome = true ∧
      ∀ r, backupDatabase healthy ["PRAGMA synchronous=OFF;"] 5 1 = some r →
        BackupReports ["PRAGMA synchronous=OFF;"] r := by
  refine ⟨rfl, fun r h => ?_⟩
  refine ((success_reported_iff healthy none ["PRAGMA synchronous=OFF;"] 5).2.2 1 r h).mpr (.inr (.inr ?_))
  obtain rfl := Option.some.inj h
  decide

/-- The disk is full, and writing fails. -/
def full : Sqlite
  | _, .exec "COMMIT;" => 13
  | _, .backupInit => 1
  | _, .step _ => 13
  | _, .finish => 13
  | _, _ => 0

/-- Nothing is committed and nothing is backed up, and no error is reported. -/
theorem failures_unreported :
    (transaction full).1 = 0 ∧ (.exec "COMMIT;", 13) ∈ (transaction full).2 ∧
      ¬TransactionReports (transaction full) ∧
      (backup full none).1 = 0 ∧ (.step (-1), 13) ∈ (backup full none).2 ∧
      ¬BackupReports [] (backup full none) ∧
      ∃ r, backupDatabase full [] 5 1 = some r ∧ r.1 = 0 ∧ (.step 5, 13) ∈ r.2 ∧ ¬BackupReports [] r := by
  refine ⟨rfl, by decide, fun h => ?_, rfl, by decide, fun h => ?_, _, rfl, rfl, by decide, fun h => ?_⟩
  · exact absurd (h.success rfl).2.2 (by decide)
  · exact absurd (h rfl).2.2.2.2 (by decide)
  · exact absurd (h rfl).2.2.2.2 (by decide)

end Nodeoze.Database.Outcomes
