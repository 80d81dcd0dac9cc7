import Nodeoze.Event.Continuations

/-!
# What is on the stack

The functions that are about to be called, those of the program that have not returned, and the loops of
`all`, `any` and `race` that are not through.  `Began` says what the beginning of a step does to these
and to what the functions have returned; what the step settles or attaches then puts at most one function
on top (`Entered`), so that in the program's turn none is about to be called (`Ordered`).
-/

namespace Nodeoze.Event.Promises

open Promise (Outcome)

variable {V Err : Type} {env : Values V Err}

namespace Frame

def call? : Frame V Err → Option (Callback × Outcome V Err)
  | .call k o => some (k, o)
  | _ => none

def job? : Frame V Err → Option (Kind × Nat)
  | .running job => job
  | _ => none

def register? : Frame V Err → Option (Nat × Nat × List Nat)
  | .register c index todo => some (c, index, todo)
  | _ => none

end Frame

/-- What the closures share when none of them has been called. -/
def Gather.start (env : Values V Err) (mode : Mode) (isVoid : Bool) (inputs : List Nat) : Gather V :=
  ⟨mode, isVoid, inputs.length, 0, List.replicate inputs.length env.blank⟩

/-- The type of what `then` returns, if that is a promise of its own. -/
def Kind.isVoid : Kind → Bool
  | .nothing | .value => false
  | .promise isVoid => isVoid

/-- What a function of this kind returns. -/
def Kind.Fits : Kind → Result V → Prop
  | .nothing, .nothing | .value, .value _ | .promise _, .promise _ => True
  | _, _ => False

namespace State

variable {s s' t : State V Err}

/-- What is about to be called. -/
def pending (s : State V Err) : List (Callback × Outcome V Err) := s.stack.filterMap Frame.call?

/-- The functions that have not returned. -/
def jobs (s : State V Err) : List (Kind × Nat) := s.stack.filterMap Frame.job?

/-- The loops that are not through. -/
def registers (s : State V Err) : List (Nat × Nat × List Nat) := s.stack.filterMap Frame.register?

/-- What is called next. -/
def top (s : State V Err) : List (Callback × Outcome V Err) := (s.stack.head?.bind Frame.call?).toList

/-- Nothing of the history of functions changes, and none is on top. -/
structure Kept (s s' : State V Err) : Prop where
  gathers : s'.gathers = s.gathers
  returned : s'.returned = s.returned
  jobs : s'.jobs = s.jobs
  registers : s'.registers = s.registers
  pending : s'.pending = s.pending
  top : s.top = []

/-- A function is taken off the stack. -/
structure Taken (s : State V Err) (k : Callback) (o : Outcome V Err) (s' : State V Err) : Prop where
  returned : s'.returned = s.returned
  registers : s'.registers = s.registers
  pending : s.pending = (k, o) :: s'.pending
  top : s.top = [(k, o)]

/-- What the beginning of a step does. -/
inductive Began (env : Values V Err) (s s' : State V Err) : Act V Err → Effect V Err → Prop
  | idle (a : Act V Err) (h : Kept s s') : Began env s s' a .idle
  | then_ (p : Nat) (kind : Kind) (hasReject : Bool) (leaves : V) (h : Kept s s')
      (hvoid : kind ≠ .nothing → (s'.cells s.next).isVoid = kind.isVoid) :
      Began env s s' (.then_ p kind hasReject leaves)
        (.attach p (.user kind s.next) (kind.rejectSlot s.next hasReject) leaves)
  | catcher (p : Nat) (h : Kept s s') : Began env s s' (.catcher p) (.catch_ p (.catcher s.next))
  | settle (p : Nat) (o : Outcome V Err) (h : Kept s s') : Began env s s' (.settle p o) (.settle p o)
  | gatherNone (mode : Mode) (isVoid : Bool)
      (hgathers : s'.gathers = Function.update s.gathers s.next (some (.start env mode isVoid [])))
      (hvoid : (s'.cells s.next).isVoid = isVoid) (hjobs : s'.jobs = s.jobs)
      (hregisters : s'.registers = s.registers) (hreturned : s'.returned = s.returned)
      (hpending : s'.pending = s.pending) (htop : s.top = []) :
      Began env s s' (.gather mode isVoid []) (.settle s.next (mode.ofEmpty env))
  | gather (mode : Mode) (isVoid : Bool) (inputs : List Nat)
      (hgathers : s'.gathers = Function.update s.gathers s.next (some (.start env mode isVoid inputs)))
      (hvoid : (s'.cells s.next).isVoid = isVoid)
      (hinputs : ∀ p ∈ inputs, p ∈ s.promises ∧ (s.cells p).isVoid = isVoid) (hne : inputs ≠ [])
      (hregisters : s'.registers = (s.next, 0, inputs) :: s.registers) (hjobs : s'.jobs = s.jobs)
      (hreturned : s'.returned = s.returned) (hpending : s'.pending = s.pending) (htop : s.top = []) :
      Began env s s' (.gather mode isVoid inputs) .idle
  | ret (kind : Kind) (n : Nat) (result : Result V) (leaves : V) (e : Effect V Err)
      (hgathers : s'.gathers = s.gathers) (hjobs : s.jobs = (kind, n) :: s'.jobs)
      (hreturned : s'.returned = s.returned ++ [(kind, n, result)])
      (hregisters : s'.registers = s.registers) (hpending : s'.pending = s.pending) (htop : s.top = [])
      (he : match kind, result with
        | .nothing, .nothing => e = .idle
        | .value, .value v => e = .settle n (.resolved v)
        | .promise isVoid, .promise q => q ∈ s.promises ∧ (s.cells q).isVoid = isVoid ∧
          e = .attach q (.pass s.next n) (some (.passError s.next n)) leaves
        | _, _ => False) :
      Began env s s' (.ret result leaves) e
  | user (kind : Kind) (n : Nat) (o : Outcome V Err) (leaves : V) (h : Taken s (.user kind n) o s')
      (hgathers : s'.gathers = s.gathers) (hjobs : s'.jobs = (kind, n) :: s.jobs) :
      Began env s s' (.go leaves) .idle
  | other (k : Callback) (o : Outcome V Err) (leaves : V) (h : Taken s k o s') (hk : k.target = none)
      (hgathers : s'.gathers = s.gathers) (hjobs : s'.jobs = s.jobs) :
      Began env s s' (.go leaves) .idle
  | pass (k : Callback) (n : Nat) (o : Outcome V Err) (leaves : V) (h : Taken s k o s')
      (hk : k = .forward n ∨ ∃ m, k = .pass m n ∨ k = .passError m n)
      (hgathers : s'.gathers = s.gathers) (hjobs : s'.jobs = s.jobs) :
      Began env s s' (.go leaves) (.settle n o)
  | gathered (k : Callback) (m c index : Nat) (o : Outcome V Err) (leaves : V) (h : Taken s k o s')
      (hk : k = .gather m c index ∨ k = .gatherError m c index) (hjobs : s'.jobs = s.jobs)
      (e : Effect V Err)
      (he : match s.gathers c with
        | none => s'.gathers = s.gathers ∧ e = .idle
        | some g =>
          let r := g.hear env (s.cells c).isFinished index o
          s'.gathers = Function.update s.gathers c (some r.1) ∧ e = r.2.elim .idle (.settle c)) :
      Began env s s' (.go leaves) e
  | through (c index : Nat) (leaves : V) (hregisters : s.registers = (c, index, []) :: s'.registers)
      (hgathers : s'.gathers = s.gathers) (hreturned : s'.returned = s.returned) (hjobs : s'.jobs = s.jobs)
      (hpending : s'.pending = s.pending) (htop : s.top = []) :
      Began env s s' (.go leaves) .idle
  | next (c index p : Nat) (todo : List Nat) (leaves : V) (rest : List (Nat × Nat × List Nat))
      (hregisters : s.registers = (c, index, p :: todo) :: rest)
      (hregisters' : s'.registers = (c, index + 1, todo) :: rest) (hgathers : s'.gathers = s.gathers)
      (hreturned : s'.returned = s.returned) (hjobs : s'.jobs = s.jobs)
      (hpending : s'.pending = s.pending) (htop : s.top = []) :
      Began env s s' (.go leaves)
        (.attach p (.gather s.next c index) (some (.gatherError s.next c index)) leaves)

theorem top_of_userTurn (h : s.userTurn = true) : s.top = [] := by
  unfold userTurn at h
  unfold top
  split at h
  · rename_i hstack
    rw [hstack]
    rfl
  · rename_i job rest hstack
    rw [hstack]
    rfl
  · cases h

theorem kept_of_stack (hstack : s'.stack = s.stack) (hgathers : s'.gathers = s.gathers)
    (hreturned : s'.returned = s.returned) (htop : s.top = []) : Kept s s' := by
  refine ⟨hgathers, hreturned, ?_, ?_, ?_, htop⟩
  · rw [jobs, hstack, jobs]
  · rw [registers, hstack, registers]
  · rw [pending, hstack, pending]

/-- A frame is taken off that none of this looks at, and others of this kind may come. -/
theorem kept_of_pop (new : List (Frame V Err)) {f : Frame V Err} {rest : List (Frame V Err)}
    (hstack : s.stack = f :: rest) (hstack' : s'.stack = new ++ rest) (hgathers : s'.gathers = s.gathers)
    (hreturned : s'.returned = s.returned)
    (hblank : ∀ g ∈ f :: new, g.call? = none ∧ g.job? = none ∧ g.register? = none) : Kept s s' := by
  have hf := hblank f List.mem_cons_self
  have hnew := fun g hg => hblank g (List.mem_cons_of_mem f hg)
  refine ⟨hgathers, hreturned, ?_, ?_, ?_, ?_⟩
  · rw [jobs, jobs, hstack, hstack', List.filterMap_append, List.filterMap_cons_none hf.2.1,
      List.filterMap_eq_nil_iff.mpr fun g hg => (hnew g hg).2.1, List.nil_append]
  · rw [registers, registers, hstack, hstack', List.filterMap_append, List.filterMap_cons_none hf.2.2,
      List.filterMap_eq_nil_iff.mpr fun g hg => (hnew g hg).2.2, List.nil_append]
  · rw [pending, pending, hstack, hstack', List.filterMap_append, List.filterMap_cons_none hf.1,
      List.filterMap_eq_nil_iff.mpr fun g hg => (hnew g hg).1, List.nil_append]
  · simp [top, hstack, hf.1]

theorem stack_takeFinally (s : State V Err) (p : Nat) :
    ∃ new, (s.takeFinally p).stack = new ++ s.stack ∧ (s.takeFinally p).gathers = s.gathers ∧
      (s.takeFinally p).returned = s.returned ∧
      ∀ g ∈ new, g.call? = none ∧ g.job? = none ∧ g.register? = none := by
  unfold takeFinally
  split
  · rename_i k hk
    refine ⟨[.final k], rfl, rfl, rfl, fun g hg => ?_⟩
    obtain rfl := List.mem_singleton.mp hg
    exact ⟨rfl, rfl, rfl⟩
  · exact ⟨[], rfl, rfl, rfl, fun g hg => absurd hg List.not_mem_nil⟩

theorem began_giveBack {f : Frame V Err} {leaves : V} {job : Option (Kind × Nat)} {result : Result V}
    {rest : List (Frame V Err)} {e : Effect V Err} (hstack : s.stack = f :: rest) (hf : f = .running job)
    (h : ({ s with stack := rest } : State V Err).giveBack leaves job result = some (s', e)) :
    Began env s s' (.ret result leaves) e := by
  subst hf
  have htop : s.top = [] := by simp [top, hstack, Frame.call?]
  have hjobs : ∀ kind n, job = some (kind, n) → s.jobs = (kind, n) :: rest.filterMap Frame.job? := by
    rintro kind n rfl
    simp [jobs, hstack, Frame.job?]
  have hregisters : s.registers = rest.filterMap Frame.register? := by
    simp [registers, hstack, List.filterMap_cons, Frame.register?]
  have hpending : s.pending = rest.filterMap Frame.call? := by
    simp [pending, hstack, List.filterMap_cons, Frame.call?]
  unfold giveBack at h
  split at h
  · cases h
    refine .idle _ (kept_of_pop [] hstack rfl rfl rfl fun g hg => ?_)
    obtain rfl := List.mem_singleton.mp hg
    exact ⟨rfl, rfl, rfl⟩
  · cases h
    exact .ret .nothing _ .nothing leaves .idle rfl (hjobs _ _ rfl) rfl hregisters.symm hpending.symm htop rfl
  · cases h
    exact .ret .value _ (.value _) leaves _ rfl (hjobs _ _ rfl) rfl hregisters.symm hpending.symm htop rfl
  · split at h
    · rename_i hknown
      cases h
      simp only [Bool.and_eq_true, List.contains_eq_mem, decide_eq_true_eq, beq_iff_eq] at hknown
      exact .ret (.promise _) _ (.promise _) leaves _ rfl (hjobs _ _ rfl) rfl hregisters.symm hpending.symm
        htop ⟨hknown.1, hknown.2, rfl⟩
    · cases h
  · cases h

theorem taken_of_pop (new : List (Frame V Err)) {k : Callback} {o : Outcome V Err}
    {rest : List (Frame V Err)}
    (hstack : s.stack = .call k o :: rest) (hstack' : s'.stack = new ++ rest)
    (hreturned : s'.returned = s.returned) (hnew : ∀ g ∈ new, g.call? = none ∧ g.register? = none) :
    Taken s k o s' := by
  refine ⟨hreturned, ?_, ?_, ?_⟩
  · rw [registers, registers, hstack, hstack', List.filterMap_append,
      List.filterMap_eq_nil_iff.mpr fun g hg => (hnew g hg).2, List.nil_append]
    rfl
  · rw [pending, pending, hstack, hstack', List.filterMap_append,
      List.filterMap_eq_nil_iff.mpr fun g hg => (hnew g hg).1, List.nil_append]
    rfl
  · rw [top, hstack]
    rfl

theorem began_invoke {k : Callback} {o : Outcome V Err} {leaves : V} {rest : List (Frame V Err)}
    {e : Effect V Err} (hstack : s.stack = .call k o :: rest)
    (h : ({ s with stack := rest } : State V Err).invoke env k o = (s', e)) :
    Began env s s' (.go leaves) e := by
  have hjobs : s.jobs = rest.filterMap Frame.job? := by
    rw [jobs, hstack]
    rfl
  have hother : ∀ hk : k.target = none,
      (s', e) = (({ s with stack := rest } : State V Err).push (.running none), .idle) →
      Began env s s' (.go leaves) e := by
    intro hk heq
    cases heq
    refine .other k o leaves (taken_of_pop [.running none] hstack rfl rfl fun g hg => ?_) hk rfl
      hjobs.symm
    obtain rfl := List.mem_singleton.mp hg
    exact ⟨rfl, rfl⟩
  have hpass : ∀ n, (k = .forward n ∨ ∃ m, k = .pass m n ∨ k = .passError m n) →
      (s', e) = (({ s with stack := rest } : State V Err), .settle n o) →
      Began env s s' (.go leaves) e := by
    intro n hk heq
    cases heq
    exact .pass k n o leaves (taken_of_pop [] hstack rfl rfl fun g hg => absurd hg List.not_mem_nil)
      hk rfl hjobs.symm
  have hgathered : ∀ m c index, (k = .gather m c index ∨ k = .gatherError m c index) →
      ({ s with stack := rest } : State V Err).invoke env (.gather m c index) o = (s', e) →
      Began env s s' (.go leaves) e := by
    intro m c index hk heq
    simp only [invoke] at heq
    split at heq
    · rename_i hnone
      obtain ⟨rfl, rfl⟩ := Prod.mk.inj heq
      have htaken : Taken s k o { s with stack := rest } :=
        taken_of_pop [] hstack rfl rfl fun g hg => absurd hg List.not_mem_nil
      refine .gathered k m c index o leaves htaken hk hjobs.symm _ ?_
      rw [show s.gathers c = none from hnone]
      exact ⟨rfl, rfl⟩
    · rename_i g hg
      obtain ⟨rfl, rfl⟩ := Prod.mk.inj heq
      have htaken : Taken s k o { s with
          stack := rest,
          gathers := Function.update s.gathers c (some (g.hear env (s.cells c).isFinished index o).1) } :=
        taken_of_pop [] hstack rfl rfl fun g hg => absurd hg List.not_mem_nil
      refine .gathered k m c index o leaves htaken hk hjobs.symm _ ?_
      rw [show s.gathers c = some g from hg]
      exact ⟨rfl, rfl⟩
  cases k with
  | user kind n =>
    cases h
    refine .user kind n o leaves
      (taken_of_pop [.running (some (kind, n))] hstack rfl rfl fun g hg => ?_) rfl ?_
    · obtain rfl := List.mem_singleton.mp hg
      exact ⟨rfl, rfl⟩
    · rw [hjobs]
      rfl
  | reject n => exact hother rfl h.symm
  | catcher n => exact hother rfl h.symm
  | final n => exact hother rfl h.symm
  | forward n => exact hpass n (.inl rfl) h.symm
  | pass m n => exact hpass n (.inr ⟨m, .inl rfl⟩) h.symm
  | passError m n => exact hpass n (.inr ⟨m, .inr rfl⟩) h.symm
  | gather m c index => exact hgathered m c index (.inl rfl) h
  | gatherError m c index => exact hgathered m c index (.inr rfl) h

theorem began_resume {f : Frame V Err} {leaves : V} {rest : List (Frame V Err)} {e : Effect V Err}
    (hstack : s.stack = f :: rest)
    (h : ({ s with stack := rest } : State V Err).resume env leaves f = some (s', e)) :
    Began env s s' (.go leaves) e := by
  cases f with
  | call k o => exact began_invoke hstack (Option.some.inj h)
  | final k =>
    cases h
    refine .idle _ (kept_of_pop [.running none] hstack rfl rfl rfl fun g hg => ?_)
    rcases List.mem_cons.mp hg with rfl | hg
    · exact ⟨rfl, rfl, rfl⟩
    · obtain rfl := List.mem_singleton.mp hg
      exact ⟨rfl, rfl, rfl⟩
  | running job => cases h
  | after p rejected =>
    cases h
    obtain ⟨new, hnew, hgathers, hreturned, hblank⟩ := stack_takeFinally
      (({ s with stack := rest } : State V Err).setCell p
        (if rejected then { s.cells p with resolve := none } else { s.cells p with reject := none })) p
    refine .idle _ (kept_of_pop new hstack hnew hgathers hreturned fun g hg => ?_)
    rcases List.mem_cons.mp hg with rfl | hg
    · exact ⟨rfl, rfl, rfl⟩
    · exact hblank g hg
  | direct p =>
    cases h
    split
    · obtain ⟨new, hnew, hgathers, hreturned, hblank⟩ :=
        stack_takeFinally ({ s with stack := rest } : State V Err) p
      refine .idle _ (kept_of_pop new hstack hnew hgathers hreturned fun g hg => ?_)
      rcases List.mem_cons.mp hg with rfl | hg
      · exact ⟨rfl, rfl, rfl⟩
      · exact hblank g hg
    · refine .idle _ (kept_of_pop [] hstack rfl rfl rfl fun g hg => ?_)
      obtain rfl := List.mem_singleton.mp hg
      exact ⟨rfl, rfl, rfl⟩
  | register c index todo =>
    have htop : s.top = [] := by
      rw [top, hstack]
      rfl
    cases todo with
    | nil =>
      simp only [resume] at h
      split at h <;> cases h
      refine .through c index leaves ?_ rfl rfl ?_ ?_ htop
      · rw [registers, hstack]
        rfl
      · rw [jobs, jobs, hstack]
        rfl
      · rw [pending, pending, hstack]
        rfl
    | cons p todo =>
      simp only [resume] at h
      split at h <;> cases h
      refine .next c index p todo leaves (rest.filterMap Frame.register?) ?_ rfl rfl rfl ?_ ?_ htop
      · rw [registers, hstack]
        rfl
      · rw [jobs, jobs, hstack]
        rfl
      · rw [pending, pending, hstack]
        rfl

theorem userTurn_of_knows {p : Nat} (h : s.knows p = true) : s.userTurn = true :=
  (Bool.and_eq_true_iff.mp h).1

/-- What the beginning of a step does. -/
theorem began {a : Act V Err} {e : Effect V Err} (h : s.prepare env a = some (s', e)) :
    Began env s s' a e := by
  cases a with
  | create isVoid =>
    simp only [prepare] at h
    split at h <;> cases h
    rename_i hturn
    exact .idle _ (kept_of_stack rfl rfl rfl (top_of_userTurn hturn))
  | then_ p kind hasReject leaves =>
    simp only [prepare] at h
    split at h <;> cases h
    rename_i hknows
    have htop := top_of_userTurn (userTurn_of_knows hknows)
    refine .then_ p kind hasReject leaves ?_ ?_
    · cases kind <;> exact kept_of_stack rfl rfl rfl htop
    · intro hkind
      cases kind with
      | nothing => exact absurd rfl hkind
      | value => simp [promiseFor, alloc, setCell, Cell.fresh, Kind.isVoid]
      | promise isVoid => simp [promiseFor, alloc, setCell, Cell.fresh, Kind.isVoid]
  | catcher p =>
    simp only [prepare] at h
    split at h <;> cases h
    rename_i hknows
    exact .catcher p (kept_of_stack rfl rfl rfl (top_of_userTurn (userTurn_of_knows hknows)))
  | finally_ p =>
    simp only [prepare] at h
    split at h <;> cases h
    rename_i hknows
    have htop := top_of_userTurn (userTurn_of_knows hknows)
    refine .idle _ ?_
    unfold doFinally
    dsimp only
    split
    · exact ⟨rfl, rfl, rfl, rfl, rfl, htop⟩
    · exact kept_of_stack rfl rfl rfl htop
  | settle p o =>
    simp only [prepare] at h
    split at h <;> cases h
    rename_i hknows
    exact .settle p o (kept_of_stack rfl rfl rfl (top_of_userTurn (userTurn_of_knows hknows)))
  | gather mode isVoid inputs =>
    simp only [prepare] at h
    split at h
    · rename_i hknown
      rw [Bool.and_eq_true] at hknown
      have htop := top_of_userTurn hknown.1
      have hinputs : ∀ p ∈ inputs, p ∈ s.promises ∧ (s.cells p).isVoid = isVoid := by
        intro p hp
        have := List.all_eq_true.mp hknown.2 p hp
        simpa only [Bool.and_eq_true, List.contains_eq_mem, decide_eq_true_eq, beq_iff_eq] using this
      have hvoid : ((s.alloc env isVoid).cells s.next).isVoid = isVoid := by
        simp [alloc, setCell, Cell.fresh]
      cases inputs with
      | nil =>
        cases h
        exact .gatherNone mode isVoid rfl hvoid rfl rfl rfl rfl htop
      | cons p ps =>
        cases h
        exact .gather mode isVoid (p :: ps) rfl hvoid hinputs (List.cons_ne_nil p ps) rfl rfl rfl rfl htop
    · cases h
  | ret result leaves =>
    simp only [prepare] at h
    split at h
    · rename_i job rest hstack
      exact began_giveBack hstack rfl h
    · cases h
  | go leaves =>
    simp only [prepare] at h
    split at h
    · rename_i f rest hstack
      exact began_resume hstack h
    · cases h

/-- What a function returns is noted, and a value is what its promise is settled with. -/
theorem Began.returned {a : Act V Err} {e : Effect V Err} (h : Began env s s' a e) :
    s'.returned = s.returned ∨ ∃ kind n result, s'.returned = s.returned ++ [(kind, n, result)] ∧
      kind.Fits result ∧ ∀ v, result = .value v → e = .settle n (.resolved v) := by
  cases h with
  | idle a hkept => exact .inl hkept.returned
  | then_ p kind hasReject leaves hkept => exact .inl hkept.returned
  | catcher p hkept => exact .inl hkept.returned
  | settle p o hkept => exact .inl hkept.returned
  | gatherNone mode isVoid _ _ _ _ hreturned => exact .inl hreturned
  | gather mode isVoid inputs _ _ _ _ _ _ hreturned => exact .inl hreturned
  | ret kind n result leaves e _ _ hreturned _ _ _ he =>
    refine .inr ⟨kind, n, result, hreturned, ?_, ?_⟩
    · cases kind <;> cases result <;> first | exact he.elim | trivial
    · rintro v rfl
      cases kind with
      | nothing => exact he.elim
      | value => exact he
      | promise isVoid => exact he.elim
  | user kind n o leaves htaken => exact .inl htaken.returned
  | other k o leaves htaken => exact .inl htaken.returned
  | pass k n o leaves htaken => exact .inl htaken.returned
  | gathered k m c index o leaves htaken => exact .inl htaken.returned
  | through c index leaves _ _ hreturned => exact .inl hreturned
  | next c index p todo leaves rest _ _ _ hreturned => exact .inl hreturned

/-- Where a settlement comes from. -/
theorem Began.settles {a : Act V Err} {p : Nat} {o : Outcome V Err} (h : Began env s s' a (.settle p o)) :
    a = .settle p o ∨ p = s.next ∨ (∃ kind v, (kind, p, .value v) ∈ s'.returned ∧ o = .resolved v) ∨
      (∃ k, (k, o) ∈ s.pending ∧ (k = .forward p ∨ ∃ m, k = .pass m p ∨ k = .passError m p)) ∨
      (s.gathers p).isSome = true := by
  generalize he : Effect.settle p o = e at h
  cases h with
  | idle a hkept => cases he
  | then_ p kind hasReject leaves hkept => cases he
  | catcher p hkept => cases he
  | settle p o hkept =>
    cases he
    exact .inl rfl
  | gatherNone mode isVoid =>
    cases he
    exact .inr (.inl rfl)
  | gather mode isVoid inputs => cases he
  | ret kind n result leaves e _ _ hreturned _ _ _ heffect =>
    subst he
    cases kind with
    | nothing =>
      cases result with
      | nothing => cases heffect
      | value v => exact heffect.elim
      | promise q => exact heffect.elim
    | value =>
      cases result with
      | nothing => exact heffect.elim
      | value v =>
        cases heffect
        exact .inr (.inr (.inl ⟨.value, v, hreturned.symm ▸ List.mem_append_right _ (List.mem_singleton_self _),
          rfl⟩))
      | promise q => exact heffect.elim
    | promise isVoid =>
      cases result with
      | nothing => exact heffect.elim
      | value v => exact heffect.elim
      | promise q => cases heffect.2.2
  | user kind n o leaves htaken => cases he
  | other k o leaves htaken => cases he
  | pass k n o leaves htaken hk =>
    cases he
    exact .inr (.inr (.inr (.inl ⟨k, htaken.pending.symm ▸ List.mem_cons_self, hk⟩)))
  | gathered k m c index o leaves htaken _ _ e heffect =>
    subst he
    cases hg : s.gathers c with
    | none =>
      rw [hg] at heffect
      cases heffect.2
    | some g =>
      rw [hg] at heffect
      have hsettle := heffect.2
      cases hr : (g.hear env (s.cells c).isFinished index o).2 with
      | none =>
        rw [hr] at hsettle
        cases hsettle
      | some o' =>
        rw [hr] at hsettle
        cases hsettle
        exact .inr (.inr (.inr (.inr (by rw [hg]; rfl))))
  | through c index leaves => cases he
  | next c index p todo leaves => cases he

/-! ## The end of a step -/

/-- What is called is put on top. -/
structure Entered (s t : State V Err) (new : List (Callback × Outcome V Err)) : Prop where
  gathers : t.gathers = s.gathers
  returned : t.returned = s.returned
  jobs : t.jobs = s.jobs
  registers : t.registers = s.registers
  calls : t.calls = s.calls ++ new
  pending : t.pending = new ++ s.pending
  top : new = [] ∧ t.top = s.top ∨ t.top = new

theorem entered_of_stack (below : List (Frame V Err)) {new : List (Callback × Outcome V Err)}
    (hstack : t.stack = new.map (fun call => .call call.1 call.2) ++ below ++ s.stack)
    (hnew : new.length ≤ 1) (hbelow : ∀ f ∈ below, f.call? = none ∧ f.job? = none ∧ f.register? = none)
    (hgathers : t.gathers = s.gathers) (hreturned : t.returned = s.returned)
    (hcalls : t.calls = s.calls ++ new) : Entered s t new := by
  have hcall : (new.map fun call => Frame.call call.1 call.2).filterMap Frame.call? = new := by
    rw [List.filterMap_map]
    exact List.filterMap_some
  have hjob : (new.map fun call => Frame.call call.1 call.2).filterMap Frame.job? = [] := by
    rw [List.filterMap_map, List.filterMap_eq_nil_iff]
    exact fun _ _ => rfl
  have hregister : (new.map fun call => Frame.call call.1 call.2).filterMap Frame.register? = [] := by
    rw [List.filterMap_map, List.filterMap_eq_nil_iff]
    exact fun _ _ => rfl
  refine ⟨hgathers, hreturned, ?_, ?_, hcalls, ?_, ?_⟩
  · rw [jobs, jobs, hstack, List.filterMap_append, List.filterMap_append, hjob,
      List.filterMap_eq_nil_iff.mpr fun f hf => (hbelow f hf).2.1]
    rfl
  · rw [registers, registers, hstack, List.filterMap_append, List.filterMap_append, hregister,
      List.filterMap_eq_nil_iff.mpr fun f hf => (hbelow f hf).2.2]
    rfl
  · rw [pending, pending, hstack, List.filterMap_append, List.filterMap_append,
      List.filterMap_eq_nil_iff.mpr fun f hf => (hbelow f hf).1, hcall, List.append_nil]
  · rw [top, top, hstack]
    rcases new with _ | ⟨call, _ | ⟨call', new⟩⟩
    · rcases below with _ | ⟨f, below⟩
      · exact .inl ⟨rfl, rfl⟩
      · right
        simp [(hbelow f List.mem_cons_self).1]
    · exact .inr rfl
    · simp at hnew

theorem length_direct (s : State V Err) (p : Nat) (a : Callback) (b : Option Callback) :
    (s.direct p a b).length ≤ 1 := by
  unfold direct
  dsimp only
  split
  · cases b <;> simp
  · split <;> simp

/-- What a step calls. -/
def entering (env : Values V Err) (s : State V Err) : Effect V Err → List (Callback × Outcome V Err)
  | .idle => []
  | .settle p o =>
    if (s.fate p).isSome then []
    else
      let o := env.norm (s.cells p).isVoid o
      ((s.cells p).slot o.isRejected).toList.map fun k => (k, o)
  | .attach p a b _ => s.direct p a b
  | .catch_ p k => if (s.cells p).rejected then [(k, .rejected (s.cells p).err)] else []

theorem Performed.entered {e : Effect V Err} (h : Performed env s e t) :
    Entered s t (s.entering env e) := by
  cases h with
  | idle => exact ⟨rfl, rfl, rfl, rfl, (List.append_nil _).symm, rfl, .inl ⟨rfl, rfl⟩⟩
  | late p o hsome =>
    rw [entering, if_pos hsome]
    exact ⟨rfl, rfl, rfl, rfl, (List.append_nil _).symm, rfl, .inl ⟨rfl, rfl⟩⟩
  | @settles p o _ hnone hset =>
    have hentering : s.entering env (.settle p o)
        = ((s.cells p).slot (env.norm (s.cells p).isVoid o).isRejected).toList.map
          fun k => (k, env.norm (s.cells p).isVoid o) := by
      rw [entering, hnone]
      rfl
    rw [hentering]
    have hstack := hset.stack
    cases hslot : (s.cells p).slot (env.norm (s.cells p).isVoid o).isRejected with
    | none =>
      rw [hslot] at hstack
      refine entered_of_stack [] hstack (Nat.zero_le _) (fun f hf => absurd hf List.not_mem_nil)
        hset.gathers hset.returned ?_
      rw [hset.calls, hslot]
    | some k =>
      rw [hslot] at hstack
      refine entered_of_stack [.after p _] hstack (Nat.le_refl _) (fun f hf => ?_) hset.gathers
        hset.returned ?_
      · obtain rfl := List.mem_singleton.mp hf
        exact ⟨rfl, rfl, rfl⟩
      · rw [hset.calls, hslot]
  | @attaches p a b leaves _ hatt =>
    refine entered_of_stack _ hatt.stack (length_direct s p a b) (fun f hf => ?_) hatt.gathers hatt.returned
      hatt.calls
    split at hf
    · obtain rfl := List.mem_singleton.mp hf
      exact ⟨rfl, rfl, rfl⟩
    · cases hf
  | @catches p k _ hcatch =>
    have hstack := hcatch.stack
    have hcalls := hcatch.calls
    cases hrej : (s.cells p).rejected with
    | false =>
      rw [hrej] at hstack hcalls
      rw [show s.entering env (.catch_ p k) = [] by rw [entering, hrej]; rfl]
      exact entered_of_stack [] hstack (Nat.zero_le _) (fun f hf => absurd hf List.not_mem_nil)
        hcatch.gathers hcatch.returned hcalls
    | true =>
      rw [hrej] at hstack hcalls
      rw [show s.entering env (.catch_ p k) = [(k, .rejected (s.cells p).err)] by rw [entering, hrej]; rfl]
      exact entered_of_stack [] hstack (Nat.le_refl _) (fun f hf => absurd hf List.not_mem_nil)
        hcatch.gathers hcatch.returned hcalls

/-! ## At most one function is about to be called -/

theorem top_of_pending (h : s.pending = []) : s.top = [] := by
  unfold pending at h
  unfold top
  cases hstack : s.stack with
  | nil => rfl
  | cons f rest =>
    rw [hstack, List.filterMap_eq_nil_iff] at h
    simp [h f List.mem_cons_self]

/-- What is about to be called is on top. -/
def Ordered (s : State V Err) : Prop := s.pending = s.top

theorem Began.pending {a : Act V Err} {e : Effect V Err} (h : Began env s s' a e) :
    s.pending = s.top ++ s'.pending := by
  cases h with
  | idle a hkept => rw [hkept.top, hkept.pending, List.nil_append]
  | then_ p kind hasReject leaves hkept => rw [hkept.top, hkept.pending, List.nil_append]
  | catcher p hkept => rw [hkept.top, hkept.pending, List.nil_append]
  | settle p o hkept => rw [hkept.top, hkept.pending, List.nil_append]
  | gatherNone mode isVoid _ _ _ _ _ hpending htop => rw [htop, hpending, List.nil_append]
  | gather mode isVoid inputs _ _ _ _ _ _ _ hpending htop => rw [htop, hpending, List.nil_append]
  | ret kind n result leaves e _ _ _ _ hpending htop => rw [htop, hpending, List.nil_append]
  | user kind n o leaves htaken => rw [htaken.top, htaken.pending, List.singleton_append]
  | other k o leaves htaken => rw [htaken.top, htaken.pending, List.singleton_append]
  | pass k n o leaves htaken => rw [htaken.top, htaken.pending, List.singleton_append]
  | gathered k m c index o leaves htaken => rw [htaken.top, htaken.pending, List.singleton_append]
  | through c index leaves _ _ _ _ hpending htop => rw [htop, hpending, List.nil_append]
  | next c index p todo leaves rest _ _ _ _ _ hpending htop => rw [htop, hpending, List.nil_append]

theorem Ordered.began {a : Act V Err} {e : Effect V Err} (h : s.Ordered) (hbegan : Began env s s' a e) :
    s'.pending = [] := by
  have hpending := hbegan.pending
  rw [h] at hpending
  exact List.self_eq_append_right.mp hpending

theorem Entered.ordered {new : List (Callback × Outcome V Err)} (h : Entered s t new)
    (hnil : s.pending = []) : t.Ordered := by
  unfold Ordered
  rw [h.pending, hnil, List.append_nil]
  rcases h.top with ⟨rfl, htop⟩ | htop
  · rw [htop, top_of_pending hnil]
  · exact htop.symm

/-- A step, with what it does to the stack. -/
theorem step_began {a : Act V Err} (h : s.Sound env) (hstep : s.step env a = some t) :
    ∃ s' e, Began env s s' a e ∧ Prepared env s s' e ∧ Performed env s' e t ∧ s.effect env a = some e := by
  obtain ⟨s', e, hprep, hp, hperf⟩ := step_cases h hstep
  exact ⟨s', e, began hprep, hp, hperf, by rw [effect, hprep]; rfl⟩

theorem Ordered.step {a : Act V Err} (h : s.Ordered) (hs : s.Sound env)
    (hstep : s.step env a = some t) : t.Ordered := by
  obtain ⟨s', e, hbegan, -, hperf, -⟩ := step_began hs hstep
  exact hperf.entered.ordered (h.began hbegan)

theorem ordered_init : (init env : State V Err).Ordered := rfl

/-- In the program's turn everything that was called has begun. -/
theorem Ordered.userTurn (h : s.Ordered) (hturn : s.userTurn = true) : s.pending = [] :=
  h.trans (top_of_userTurn hturn)

end State

end Nodeoze.Event.Promises
