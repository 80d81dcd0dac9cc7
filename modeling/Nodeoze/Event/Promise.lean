import Mathlib.Data.List.Perm.Basic
import Mathlib.Tactic.Common

/-!
# Promises

A promise is settled once, by `resolve` or `reject`, and calls back what was registered on it with
`then`, `catcher` and `finally`, before or after.  `Shared` is what the copies of a promise share; each
operation gives the calls that it makes.  The promises of `void` have versions of their own for some
operations, which `isVoid` tells apart.

Callbacks that are registered behind the settlement are called at once.  Those before it may be lost:
`then` writes over the catcher also where it brings no callback for errors, and what was registered
with `finally` is only called together with another callback.
-/

namespace Nodeoze.Event.Promise

variable {K T Err : Type}

/-- `__promise_shared` -/
structure Shared (K T Err : Type) where
  resolved : Bool
  rejected : Bool
  resolve : Option K
  reject : Option K
  finally_ : Option K
  val : T
  err : Err

inductive Call (K T Err : Type)
  | resolve (f : K) (val : T)
  | reject (f : K) (err : Err)
  | finally_ (f : K)
  deriving DecidableEq, Repr

/-- How a promise is settled. -/
inductive Outcome (T Err : Type)
  | resolved (val : T)
  | rejected (err : Err)

/-- What is registered; the resolve callback of `then` returns nothing. -/
inductive Reg (K : Type)
  | then_ (resolve : K) (reject : Option K)
  | catcher (f : K)
  | finally_ (f : K)
  deriving DecidableEq, Repr

namespace Shared

/-- `promise()` -/
def create [Inhabited T] [Inhabited Err] : Shared K T Err := ⟨false, false, none, none, none, default, default⟩

def isFinished (s : Shared K T Err) : Bool := s.resolved || s.rejected

/-- `if ( m_shared->finally )` -/
def takeFinally (s : Shared K T Err) : Shared K T Err × List (Call K T Err) :=
  match s.finally_ with
  | some g => ({ s with finally_ := none }, [.finally_ g])
  | none => (s, [])

/-- `promise::resolve`; the value of a `void` promise is the unit. -/
def doResolve (s : Shared K T Err) (val : T) : Shared K T Err × List (Call K T Err) :=
  if !s.isFinished then
    match s.resolve with
    | some f =>
      let (s, calls) := takeFinally { s with resolved := true, resolve := none, reject := none }
      (s, .resolve f val :: calls)
    | none => ({ s with resolved := true, val := val }, [])
  else (s, [])

/-- `promise::reject` -/
def doReject (s : Shared K T Err) (err : Err) : Shared K T Err × List (Call K T Err) :=
  if !s.isFinished then
    match s.reject with
    | some f =>
      let (s, calls) := takeFinally { s with rejected := true, err := err, reject := none, resolve := none }
      (s, .reject f err :: calls)
    | none => ({ s with rejected := true, err := err }, [])
  else (s, [])

/-- `maybe_direct_resolve_reject`; only the one of `void` promises looks for `finally`. -/
def maybeDirectResolveReject (isVoid : Bool) (s : Shared K T Err) :
    Shared K T Err × List (Call K T Err) :=
  let direct : List (Call K T Err) :=
    if s.rejected then s.reject.toList.map fun f => .reject f s.err
    else if s.resolved then s.resolve.toList.map fun f => .resolve f s.val
    else []
  if isVoid && s.isFinished then
    let (s, calls) := s.takeFinally
    (s, direct ++ calls)
  else (s, direct)

/-- `then`, `catcher` and `finally` -/
def register (isVoid : Bool) (s : Shared K T Err) : Reg K → Shared K T Err × List (Call K T Err)
  | .then_ f g => maybeDirectResolveReject isVoid { s with resolve := some f, reject := g }
  | .catcher f =>
    if s.isFinished then (s, if s.rejected then [.reject f s.err] else [])
    else ({ s with reject := some f }, [])
  | .finally_ f =>
    if s.isFinished then (s, [.finally_ f]) else ({ s with finally_ := some f }, [])

def registerAll (isVoid : Bool) (s : Shared K T Err) :
    List (Reg K) → Shared K T Err × List (Call K T Err)
  | [] => (s, [])
  | r :: rs =>
    let (s, calls) := s.register isVoid r
    let (s, calls') := s.registerAll isVoid rs
    (s, calls ++ calls')

def settle (s : Shared K T Err) : Outcome T Err → Shared K T Err × List (Call K T Err)
  | .resolved val => s.doResolve val
  | .rejected err => s.doReject err

end Shared

/-- The calls of a promise that is settled between registrations. -/
def calls [Inhabited T] [Inhabited Err] (isVoid : Bool) (before : List (Reg K)) (o : Outcome T Err)
    (after : List (Reg K)) : List (Call K T Err) :=
  let first := Shared.create.registerAll isVoid before
  let second := first.1.settle o
  let third := second.1.registerAll isVoid after
  first.2 ++ second.2 ++ third.2

/-! ## What should be called -/

/-- The calls that a registration is made for. -/
def wanted (o : Outcome T Err) : Reg K → List (Call K T Err)
  | .then_ f g =>
    match o with
    | .resolved val => [.resolve f val]
    | .rejected err => g.toList.map fun g => .reject g err
  | .catcher f =>
    match o with
    | .resolved _ => []
    | .rejected err => [.reject f err]
  | .finally_ f => [.finally_ f]

/-- Every registration is called as it should be, once, and nothing else is. -/
def CallsAll [Inhabited T] [Inhabited Err] (isVoid : Bool) (before : List (Reg K)) (o : Outcome T Err)
    (after : List (Reg K)) : Prop :=
  (calls isVoid before o after).Perm ((before ++ after).flatMap (wanted o))

def thenOf : Reg K → Option K
  | .then_ f _ => some f
  | _ => none

/-- The callback for errors that a registration brings. -/
def rejectOf : Reg K → Option K
  | .then_ _ g => g
  | .catcher f => some f
  | .finally_ _ => none

/-- What a registration writes to `m_shared->reject`. -/
def writeOf : Reg K → Option (Option K)
  | .then_ _ g => some g
  | .catcher f => some (some f)
  | .finally_ _ => none

def finallyOf : Reg K → Option K
  | .finally_ f => some f
  | _ => none

/-- At most one `then`, one callback for errors and one `finally`. -/
structure Single (regs : List (Reg K)) : Prop where
  then_ : (regs.filterMap thenOf).length ≤ 1
  reject : (regs.filterMap rejectOf).length ≤ 1
  finally_ : (regs.filterMap finallyOf).length ≤ 1

/-- What is registered before the settlement is not lost: a callback for errors is not written over,
and `finally` is there together with a callback that is called, or before a later `then` of a `void`
promise. -/
def Kept (isVoid : Bool) (before : List (Reg K)) (o : Outcome T Err) (after : List (Reg K)) : Prop :=
  match o with
  | .resolved _ =>
    before.filterMap finallyOf = [] ∨ before.filterMap thenOf ≠ [] ∨
      (isVoid = true ∧ after.filterMap thenOf ≠ [])
  | .rejected _ =>
    (before.filterMap rejectOf ≠ [] → (before.filterMap writeOf).getLast? ≠ some none) ∧
      (before.filterMap finallyOf = [] ∨ before.filterMap rejectOf ≠ [] ∨
        (isVoid = true ∧ after.filterMap thenOf ≠ []))

/-! ## Before the settlement -/

namespace Shared

/-- A registration on a promise that is not settled. -/
def store (s : Shared K T Err) : Reg K → Shared K T Err
  | .then_ f g => { s with resolve := some f, reject := g }
  | .catcher f => { s with reject := some f }
  | .finally_ f => { s with finally_ := some f }

end Shared

theorem registerAll_open (isVoid : Bool) (s : Shared K T Err) (hres : s.resolved = false)
    (hrej : s.rejected = false) (regs : List (Reg K)) :
    s.registerAll isVoid regs = (regs.foldl Shared.store s, []) := by
  induction regs generalizing s with
  | nil => rfl
  | cons r regs ih =>
    have hreg : s.register isVoid r = (s.store r, []) := by
      cases r <;> simp [Shared.register, Shared.store, Shared.maybeDirectResolveReject,
        Shared.isFinished, hres, hrej]
    have hopen : (s.store r).resolved = false ∧ (s.store r).rejected = false := by
      cases r <;> exact ⟨hres, hrej⟩
    simp [Shared.registerAll, hreg, ih _ hopen.1 hopen.2]

/-- What is stored is what was written last. -/
theorem foldl_store (s : Shared K T Err) (regs : List (Reg K)) :
    (regs.foldl Shared.store s).resolve = ((regs.filterMap thenOf).getLast?.or s.resolve) ∧
    (regs.foldl Shared.store s).reject = (regs.filterMap writeOf).getLast?.getD s.reject ∧
    (regs.foldl Shared.store s).finally_ = ((regs.filterMap finallyOf).getLast?.or s.finally_) ∧
    (regs.foldl Shared.store s).resolved = s.resolved ∧
    (regs.foldl Shared.store s).rejected = s.rejected := by
  induction regs generalizing s with
  | nil => simp
  | cons r regs ih =>
    obtain ⟨h1, h2, h3, h4, h5⟩ := ih (s.store r)
    rw [List.foldl_cons, h1, h2, h3, h4, h5]
    cases r <;> simp [Shared.store, thenOf, writeOf, finallyOf, List.getLast?_cons]

/-! ## After the settlement -/

/-- A promise that was settled, as far as these registrations look at it. -/
def Settled (s : Shared K T Err) (regs : List (Reg K)) : Outcome T Err → Prop
  | .resolved val =>
    s.resolved = true ∧ s.rejected = false ∧ (regs.filterMap thenOf ≠ [] → s.val = val)
  | .rejected err => s.rejected = true ∧ s.err = err

/-- What a `then` of a `void` promise calls besides. -/
def late (isVoid : Bool) (f : Option K) (regs : List (Reg K)) : List (Call K T Err) :=
  if isVoid = true ∧ regs.filterMap thenOf ≠ [] then f.toList.map .finally_ else []

theorem Settled.finished {s : Shared K T Err} {regs : List (Reg K)} {o : Outcome T Err}
    (h : Settled s regs o) : s.isFinished = true := by
  cases o with
  | resolved val => simp [Shared.isFinished, h.1]
  | rejected err => simp [Shared.isFinished, h.1]

theorem Settled.tail {s : Shared K T Err} {r : Reg K} {regs : List (Reg K)} {o : Outcome T Err}
    (h : Settled s (r :: regs) o) {s' : Shared K T Err} (hres : s'.resolved = s.resolved)
    (hrej : s'.rejected = s.rejected) (hval : s'.val = s.val) (herr : s'.err = s.err) :
    Settled s' regs o := by
  cases o with
  | resolved val =>
    obtain ⟨h1, h2, h3⟩ := h
    refine ⟨hres.trans h1, hrej.trans h2, ?_⟩
    intro hthen
    rw [hval]
    apply h3
    cases r <;> simp_all [thenOf]
  | rejected err => exact ⟨hrej.trans h.1, herr.trans h.2⟩

theorem takeFinally_eq (s : Shared K T Err) :
    s.takeFinally = ({ s with finally_ := none }, s.finally_.toList.map .finally_) := by
  unfold Shared.takeFinally
  cases h : s.finally_ with
  | none => simp [← h]
  | some g => rfl

theorem register_then {s : Shared K T Err} {f : K} {g : Option K} {regs : List (Reg K)}
    {o : Outcome T Err} (h : Settled s (.then_ f g :: regs) o) (isVoid : Bool) :
    s.register isVoid (.then_ f g)
      = ({ s with resolve := some f, reject := g, finally_ := if isVoid then none else s.finally_ },
        wanted o (.then_ f g) ++ if isVoid then s.finally_.toList.map .finally_ else []) := by
  cases o with
  | resolved val =>
    obtain ⟨hres, hrej, hval⟩ := h
    have hval' : s.val = val := hval (by simp [thenOf])
    cases isVoid <;> simp [Shared.register, Shared.maybeDirectResolveReject, takeFinally_eq,
      Shared.isFinished, hres, hrej, hval', wanted]
  | rejected err =>
    obtain ⟨hrej, herr⟩ := h
    cases isVoid <;> simp [Shared.register, Shared.maybeDirectResolveReject, takeFinally_eq,
      Shared.isFinished, hrej, herr, wanted]

theorem register_catcher {s : Shared K T Err} {f : K} {regs : List (Reg K)} {o : Outcome T Err}
    (h : Settled s (.catcher f :: regs) o) (isVoid : Bool) :
    s.register isVoid (.catcher f) = (s, wanted o (.catcher f)) := by
  rw [Shared.register, if_pos h.finished]
  cases o with
  | resolved val => simp [wanted, h.2.1]
  | rejected err => simp [wanted, h.1, h.2]

theorem register_finally {s : Shared K T Err} {f : K} {regs : List (Reg K)} {o : Outcome T Err}
    (h : Settled s (.finally_ f :: regs) o) (isVoid : Bool) :
    s.register isVoid (.finally_ f) = (s, wanted o (.finally_ f)) := by
  rw [Shared.register, if_pos h.finished]
  rfl

/-- Behind the settlement every registration is called at once, and a `then` of a `void` promise
calls what `finally` has left. -/
theorem registerAll_settled (isVoid : Bool) {o : Outcome T Err} {regs : List (Reg K)}
    {s : Shared K T Err} (h : Settled s regs o) :
    (s.registerAll isVoid regs).2.Perm (regs.flatMap (wanted o) ++ late isVoid s.finally_ regs) := by
  induction regs generalizing s with
  | nil => simp [Shared.registerAll, late]
  | cons r regs ih =>
    have htail := ih (h.tail rfl rfl rfl rfl)
    rw [List.flatMap_cons]
    cases r with
    | then_ f g =>
      let s' : Shared K T Err :=
        { s with resolve := some f, reject := g, finally_ := if isVoid then none else s.finally_ }
      have hrest := @ih s' (h.tail rfl rfl rfl rfl)
      have hnone : late isVoid s'.finally_ regs = ([] : List (Call K T Err)) := by
        cases isVoid <;> simp [late, s']
      have hlate : late isVoid s.finally_ (.then_ f g :: regs)
          = (if isVoid then s.finally_.toList.map .finally_ else [] : List (Call K T Err)) := by
        simp [late, thenOf]
      rw [hnone, List.append_nil] at hrest
      rw [hlate, Shared.registerAll, register_then h]
      dsimp only
      rw [List.append_assoc, List.append_assoc]
      exact ((hrest.append_left _).trans List.perm_append_comm).append_left _
    | catcher f =>
      rw [Shared.registerAll, register_catcher h]
      dsimp only
      rw [List.append_assoc]
      exact htail.append_left _
    | finally_ f =>
      rw [Shared.registerAll, register_finally h]
      dsimp only
      rw [List.append_assoc]
      exact htail.append_left _

/-! ## All calls -/

/-- What a registration wants is what it brings for the outcome. -/
theorem flatMap_resolved (val : T) (regs : List (Reg K)) :
    (regs.flatMap (wanted (.resolved val : Outcome T Err))).Perm
      ((regs.filterMap thenOf).map (fun f => .resolve f val)
        ++ (regs.filterMap finallyOf).map .finally_) := by
  induction regs with
  | nil => simp
  | cons r regs ih =>
    rw [List.flatMap_cons]
    cases r with
    | then_ f g => simpa [wanted, thenOf, finallyOf, List.filterMap_cons] using ih
    | catcher f => simpa [wanted, thenOf, finallyOf, List.filterMap_cons] using ih
    | finally_ f =>
      simp only [wanted, thenOf, finallyOf, List.filterMap_cons, List.map_cons, List.singleton_append]
      exact (ih.cons _).trans List.perm_middle.symm

theorem flatMap_rejected (err : Err) (regs : List (Reg K)) :
    (regs.flatMap (wanted (.rejected err : Outcome T Err))).Perm
      ((regs.filterMap rejectOf).map (fun f => .reject f err)
        ++ (regs.filterMap finallyOf).map .finally_) := by
  induction regs with
  | nil => simp
  | cons r regs ih =>
    rw [List.flatMap_cons]
    cases r with
    | then_ f g => cases g <;> simpa [wanted, rejectOf, finallyOf, List.filterMap_cons] using ih
    | catcher f => simpa [wanted, rejectOf, finallyOf, List.filterMap_cons] using ih
    | finally_ f =>
      simp only [wanted, rejectOf, finallyOf, List.filterMap_cons, List.map_cons, List.singleton_append]
      exact (ih.cons _).trans List.perm_middle.symm

theorem eq_toList_getLast? {α : Type} {l : List α} (h : l.length ≤ 1) : l = l.getLast?.toList := by
  rcases l with _ | ⟨a, _ | ⟨b, l⟩⟩
  · rfl
  · rfl
  · simp at h

/-- What `finally` has left is called late, or there is nothing. -/
theorem late_perm (isVoid : Bool) {finals : List K} (h : finals.length ≤ 1) (regs : List (Reg K)) :
    (late isVoid finals.getLast? regs : List (Call K T Err)).Perm (finals.map .finally_) ↔
      finals = [] ∨ (isVoid = true ∧ regs.filterMap thenOf ≠ []) := by
  rw [late, ← eq_toList_getLast? h]
  split_ifs with hcond
  · exact iff_of_true (List.Perm.refl _) (.inr hcond)
  · constructor
    · intro hperm
      exact .inl (List.map_eq_nil_iff.mp (List.nil_perm.mp hperm))
    · intro hnil
      rw [hnil.resolve_right hcond]
      exact List.Perm.refl _

theorem length_late_le (isVoid : Bool) (finals : List K) (h : finals.length ≤ 1) (regs : List (Reg K)) :
    (late isVoid finals.getLast? regs : List (Call K T Err)).length ≤ finals.length := by
  rw [late, ← eq_toList_getLast? h]
  split_ifs <;> simp

/-- The calls at the settlement and late, for the callback `f` that is stored for the outcome. -/
def madeCalls (isVoid : Bool) (call : K → Call K T Err) (f : Option K) (finals : List K)
    (after : List (Reg K)) : List (Call K T Err) :=
  match f with
  | some f => call f :: finals.map .finally_
  | none => late isVoid finals.getLast? after

/-- They are all that is wanted of the registrations before the settlement, when a callback is stored,
or none is wanted and nothing is left to `finally`. -/
theorem madeCalls_perm (isVoid : Bool) (call : K → Call K T Err) {f : Option K} {wants finals : List K}
    (hf : ∀ k, f = some k → wants = [k]) (hfinals : finals.length ≤ 1) (after : List (Reg K)) :
    (madeCalls isVoid call f finals after).Perm (wants.map call ++ finals.map .finally_) ↔
      f ≠ none ∨ (wants = [] ∧ (finals = [] ∨ (isVoid = true ∧ after.filterMap thenOf ≠ []))) := by
  cases f with
  | some k =>
    rw [hf k rfl]
    exact iff_of_true (List.Perm.refl _) (.inl (by simp))
  | none =>
    constructor
    · intro hperm
      have hle := @length_late_le K T Err isVoid finals hfinals after
      have hlen := hperm.length_eq
      simp only [madeCalls, List.length_append, List.length_map] at hlen
      have hwants : wants = [] := List.length_eq_zero_iff.mp (by omega)
      rw [hwants] at hperm
      exact .inr ⟨hwants, (late_perm isVoid hfinals after).mp hperm⟩
    · rintro (hnone | ⟨rfl, hleft⟩)
      · exact absurd rfl hnone
      · exact (late_perm isVoid hfinals after).mpr hleft

section Main

variable [Inhabited T] [Inhabited Err]

/-- What is stored when the promise is settled. -/
def stored (before : List (Reg K)) : Shared K T Err := before.foldl Shared.store Shared.create

/-- Whether all is called is decided by what is called at the settlement, and late. -/
theorem callsAll_iff {isVoid : Bool} {before after : List (Reg K)} {o : Outcome T Err}
    {s : Shared K T Err} {settling : List (Call K T Err)}
    (hsettle : (stored before).settle o = (s, settling)) (hsettled : Settled s after o) :
    CallsAll isVoid before o after ↔
      (settling ++ late isVoid s.finally_ after).Perm (before.flatMap (wanted o)) := by
  have hbefore := registerAll_open isVoid (Shared.create : Shared K T Err) rfl rfl before
  have hafter := registerAll_settled isVoid hsettled
  have hcalls : (calls isVoid before o after).Perm
      ((settling ++ late isVoid s.finally_ after) ++ after.flatMap (wanted o)) := by
    have heq : calls isVoid before o after = settling ++ (s.registerAll isVoid after).2 := by
      unfold calls
      rw [hbefore]
      dsimp only
      rw [List.nil_append, ← stored, hsettle]
    rw [heq, List.append_assoc]
    exact (hafter.trans List.perm_append_comm).append_left _
  rw [CallsAll, List.flatMap_append]
  constructor
  · intro hall
    exact (List.perm_append_right_iff _).mp (hcalls.symm.trans hall)
  · intro hall
    exact hcalls.trans ((List.perm_append_right_iff _).mpr hall)

theorem stored_eq (before : List (Reg K)) :
    (stored before : Shared K T Err).resolve = (before.filterMap thenOf).getLast? ∧
    (stored before : Shared K T Err).reject = (before.filterMap writeOf).getLast?.getD none ∧
    (stored before : Shared K T Err).finally_ = (before.filterMap finallyOf).getLast? ∧
    (stored before : Shared K T Err).resolved = false ∧
    (stored before : Shared K T Err).rejected = false := by
  obtain ⟨h1, h2, h3, h4, h5⟩ := foldl_store (Shared.create : Shared K T Err) before
  refine ⟨?_, h2, ?_, h4, h5⟩
  · rw [stored, h1]
    exact Option.or_none
  · rw [stored, h3]
    exact Option.or_none

theorem isFinished_stored (before : List (Reg K)) :
    (stored before : Shared K T Err).isFinished = false := by
  obtain ⟨-, -, -, hres, hrej⟩ := @stored_eq K T Err _ _ before
  simp [Shared.isFinished, hres, hrej]

omit [Inhabited T] [Inhabited Err] in
theorem late_none (isVoid : Bool) (regs : List (Reg K)) :
    late isVoid none regs = ([] : List (Call K T Err)) := by
  simp [late]

/-- The settlement takes the stored callback and `finally`, or leaves both. -/
theorem callsAll_resolved (isVoid : Bool) (before after : List (Reg K)) (val : T)
    (hthen : before.filterMap thenOf ≠ [] → after.filterMap thenOf = [])
    (hfinals : (before.filterMap finallyOf).length ≤ 1) :
    CallsAll isVoid before (.resolved val : Outcome T Err) after ↔
      (madeCalls isVoid (fun f => .resolve f val) (before.filterMap thenOf).getLast?
        (before.filterMap finallyOf) after).Perm
          (before.flatMap (wanted (.resolved val : Outcome T Err))) := by
  obtain ⟨hresolve, -, hfinally, -, hrej⟩ := @stored_eq K T Err _ _ before
  have hopen := @isFinished_stored K T Err _ _ before
  cases hf : (before.filterMap thenOf).getLast? with
  | none =>
    rw [hf] at hresolve
    have hsettle : (stored before : Shared K T Err).settle (.resolved val)
        = ({ (stored before : Shared K T Err) with resolved := true, val := val }, []) := by
      simp [Shared.settle, Shared.doResolve, hopen, hresolve]
    rw [callsAll_iff hsettle ⟨rfl, hrej, fun _ => rfl⟩]
    dsimp only
    rw [List.nil_append, hfinally, madeCalls]
  | some f =>
    rw [hf] at hresolve
    have hne : before.filterMap thenOf ≠ [] := by
      intro hnil
      simp [hnil] at hf
    have hsettle : (stored before : Shared K T Err).settle (.resolved val)
        = ({ (stored before : Shared K T Err) with
            resolved := true, resolve := none, reject := none, finally_ := none },
          .resolve f val :: (stored before : Shared K T Err).finally_.toList.map .finally_) := by
      simp [Shared.settle, Shared.doResolve, hopen, hresolve, takeFinally_eq]
    rw [callsAll_iff hsettle ⟨rfl, hrej, fun h => absurd (hthen hne) h⟩]
    dsimp only
    rw [late_none, List.append_nil, hfinally, ← eq_toList_getLast? hfinals, madeCalls]

theorem callsAll_rejected (isVoid : Bool) (before after : List (Reg K)) (err : Err)
    (hfinals : (before.filterMap finallyOf).length ≤ 1) :
    CallsAll isVoid before (.rejected err : Outcome T Err) after ↔
      (madeCalls isVoid (fun f => .reject f err) ((before.filterMap writeOf).getLast?.getD none)
        (before.filterMap finallyOf) after).Perm
          (before.flatMap (wanted (.rejected err : Outcome T Err))) := by
  obtain ⟨-, hreject, hfinally, -, -⟩ := @stored_eq K T Err _ _ before
  have hopen := @isFinished_stored K T Err _ _ before
  cases hf : (before.filterMap writeOf).getLast?.getD none with
  | none =>
    rw [hf] at hreject
    have hsettle : (stored before : Shared K T Err).settle (.rejected err)
        = ({ (stored before : Shared K T Err) with rejected := true, err := err }, []) := by
      simp [Shared.settle, Shared.doReject, hopen, hreject]
    rw [callsAll_iff hsettle ⟨rfl, rfl⟩]
    dsimp only
    rw [List.nil_append, hfinally, madeCalls]
  | some f =>
    rw [hf] at hreject
    have hsettle : (stored before : Shared K T Err).settle (.rejected err)
        = ({ (stored before : Shared K T Err) with
            rejected := true, err := err, reject := none, resolve := none, finally_ := none },
          .reject f err :: (stored before : Shared K T Err).finally_.toList.map .finally_) := by
      simp [Shared.settle, Shared.doReject, hopen, hreject, takeFinally_eq]
    rw [callsAll_iff hsettle ⟨rfl, rfl⟩]
    dsimp only
    rw [late_none, List.append_nil, hfinally, ← eq_toList_getLast? hfinals, madeCalls]

omit [Inhabited T] [Inhabited Err] in
theorem perm_wanted {l w w' : List (Call K T Err)} (h : w.Perm w') : l.Perm w ↔ l.Perm w' :=
  ⟨fun hl => hl.trans h, fun hl => hl.trans h.symm⟩

theorem length_filterMap_append {α : Type} (f : Reg K → Option α) (before after : List (Reg K)) :
    ((before ++ after).filterMap f).length
      = (before.filterMap f).length + (after.filterMap f).length := by
  rw [List.filterMap_append, List.length_append]

/-- The callback for errors that was written last is one that was registered. -/
theorem mem_rejects {before : List (Reg K)} {f : K}
    (h : (before.filterMap writeOf).getLast?.getD none = some f) : f ∈ before.filterMap rejectOf := by
  cases hlast : (before.filterMap writeOf).getLast? with
  | none => simp [hlast] at h
  | some g =>
    obtain rfl : g = some f := by simpa [hlast] using h
    obtain ⟨r, hr, hwrite⟩ := List.mem_filterMap.mp (List.mem_of_getLast? hlast)
    refine List.mem_filterMap.mpr ⟨r, hr, ?_⟩
    cases r <;> simp_all [writeOf, rejectOf]

theorem writes_ne_nil {before : List (Reg K)} (h : before.filterMap rejectOf ≠ []) :
    before.filterMap writeOf ≠ [] := by
  obtain ⟨f, hf⟩ := List.exists_mem_of_ne_nil _ h
  obtain ⟨r, hr, hreject⟩ := List.mem_filterMap.mp hf
  have hwrite : writeOf r ≠ none := by
    cases r <;> simp_all [writeOf, rejectOf]
  obtain ⟨w, hw⟩ := Option.ne_none_iff_exists'.mp hwrite
  exact List.ne_nil_of_mem (List.mem_filterMap.mpr ⟨r, hr, hw⟩)

omit [Inhabited T] [Inhabited Err] in
/-- What is kept when the promise is rejected: the callback for errors that was written last, or there
was none and nothing is left to `finally`. -/
theorem kept_rejected_iff (isVoid : Bool) (before after : List (Reg K)) (err : Err) :
    Kept isVoid before (.rejected err : Outcome T Err) after ↔
      (before.filterMap writeOf).getLast?.getD none ≠ none ∨
        (before.filterMap rejectOf = [] ∧
          (before.filterMap finallyOf = [] ∨ (isVoid = true ∧ after.filterMap thenOf ≠ []))) := by
  simp only [Kept]
  constructor
  · rintro ⟨hkept, hleft⟩
    by_cases hnil : before.filterMap rejectOf = []
    · refine .inr ⟨hnil, ?_⟩
      rcases hleft with hfin | hne | hlate
      · exact .inl hfin
      · exact absurd hnil hne
      · exact .inr hlate
    · left
      obtain ⟨w, hw⟩ := Option.ne_none_iff_exists'.mp
        (mt List.getLast?_eq_none_iff.mp (writes_ne_nil hnil))
      have hsome : w ≠ none := by
        rintro rfl
        exact hkept hnil hw
      simpa [hw] using hsome
  · rintro (hsome | ⟨hnil, hleft⟩)
    · obtain ⟨f, hf⟩ := Option.ne_none_iff_exists'.mp hsome
      have hne : before.filterMap rejectOf ≠ [] := List.ne_nil_of_mem (mem_rejects hf)
      refine ⟨fun _ hlast => ?_, .inr (.inl hne)⟩
      simp [hlast] at hf
    · refine ⟨fun hne => absurd hnil hne, ?_⟩
      rcases hleft with hfin | hlate
      · exact .inl hfin
      · exact .inr (.inr hlate)

/-- All registrations are called, each once and in whatever order they are made, just when those
before the settlement are kept. -/
theorem promise_calls_iff (isVoid : Bool) (before after : List (Reg K)) (o : Outcome T Err)
    (h : Single (before ++ after)) : CallsAll isVoid before o after ↔ Kept isVoid before o after := by
  have hthen := h.then_
  have hrejects := h.reject
  have hfinals := h.finally_
  rw [length_filterMap_append] at hthen hrejects hfinals
  cases o with
  | resolved val =>
    have hone : ∀ f, (before.filterMap thenOf).getLast? = some f → before.filterMap thenOf = [f] := by
      intro f hf
      rw [eq_toList_getLast? (show (before.filterMap thenOf).length ≤ 1 by omega), hf]
      rfl
    have hlater : before.filterMap thenOf ≠ [] → after.filterMap thenOf = [] := by
      intro hne
      have := List.length_pos_iff.mpr hne
      exact List.length_eq_zero_iff.mp (by omega)
    rw [callsAll_resolved isVoid before after val hlater (by omega),
      perm_wanted (flatMap_resolved val before), madeCalls_perm isVoid _ hone (by omega)]
    simp only [Kept, ne_eq, List.getLast?_eq_none_iff]
    tauto
  | rejected err =>
    have hone : ∀ f, (before.filterMap writeOf).getLast?.getD none = some f →
        before.filterMap rejectOf = [f] := by
      intro f hf
      have hmem := mem_rejects hf
      rcases hlist : before.filterMap rejectOf with _ | ⟨g, _ | ⟨g', gs⟩⟩
      · simp [hlist] at hmem
      · rw [hlist] at hmem
        rw [List.mem_singleton.mp hmem]
      · simp only [hlist, List.length_cons] at hrejects
        omega
    rw [callsAll_rejected isVoid before after err (by omega),
      perm_wanted (flatMap_rejected err before), madeCalls_perm isVoid _ hone (by omega),
      kept_rejected_iff]

end Main

/-- A rejected promise with a `then` before and a `finally` behind the rejection. -/
theorem rejectedBetween_calls :
    CallsAll false [.then_ 1 (some 2)] (.rejected 42 : Outcome Nat Nat) [.finally_ 3] ↔
      Kept false [.then_ 1 (some 2)] (.rejected 42 : Outcome Nat Nat) [.finally_ 3] :=
  promise_calls_iff false _ _ _ ⟨by decide, by decide, by decide⟩

/-- Nothing calls `finally` on a promise that is resolved without `then`, a `then` without a callback
for errors takes the catcher away, and the `then` of a promise with a value forgets `finally`. -/
theorem promise_loses_calls :
    ¬ CallsAll true [.finally_ 1] (.resolved () : Outcome Unit Nat) [] ∧
    ¬ CallsAll true [.catcher 1, .then_ 2 none] (.rejected 42 : Outcome Unit Nat) [] ∧
    ¬ CallsAll false [.finally_ 1] (.resolved 7 : Outcome Nat Nat) [.then_ 2 none] := by
  unfold CallsAll
  decide

end Nodeoze.Event.Promise
