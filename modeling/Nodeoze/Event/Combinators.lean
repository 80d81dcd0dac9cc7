import Nodeoze.Event.Chains
import Nodeoze.Event.Gathering

/-!
# `all`, `any` and `race`

While nothing is written over a closure of a combinator and each input that is settled already has its
value when the loop comes to it, the closures are called in the order in which the inputs arrive, those that
were settled before first (`Combining`).  So the result is settled once and with what it should be, as soon
as it should be.
-/

namespace Nodeoze.Event.Promises

open Promise (Outcome)
open Runs

variable {V Err : Type} {env : Values V Err}

/-! ## What concerns a combinator -/

/-- The place of the input of a closure, if it is one of this combinator. -/
def Callback.heardBy (c : Nat) : Callback → Option Nat
  | .gather _ c' index | .gatherError _ c' index => if c' = c then some index else none
  | .user _ _ | .reject _ | .catcher _ | .final _ | .forward _ | .pass _ _ | .passError _ _ => none

def Callback.Hears (c : Nat) (k : Callback) : Bool := (k.heardBy c).isSome

/-- What of some calls goes to the closures of a combinator. -/
def heardIn (c : Nat) (calls : List (Callback × Outcome V Err)) : List (Nat × Outcome V Err) :=
  calls.filterMap fun call => (call.1.heardBy c).map fun index => (index, call.2)

/-- Nothing is attached for a combinator. -/
def Effect.Misses (c : Nat) : Effect V Err → Prop
  | .attach _ a b _ => a.heardBy c = none ∧ ∀ k ∈ b, k.heardBy c = none
  | .catch_ _ k => k.heardBy c = none
  | .idle | .settle _ _ => True

theorem heardIn_append (c : Nat) (calls calls' : List (Callback × Outcome V Err)) :
    heardIn c (calls ++ calls') = heardIn c calls ++ heardIn c calls' :=
  List.filterMap_append

theorem heardIn_eq_nil {c : Nat} {calls : List (Callback × Outcome V Err)}
    (h : ∀ call ∈ calls, call.1.heardBy c = none) : heardIn c calls = [] := by
  refine List.filterMap_eq_nil_iff.mpr fun call hcall => ?_
  rw [h call hcall]
  rfl

theorem heardIn_singleton {c index : Nat} {k : Callback} (o : Outcome V Err) (h : k.heardBy c = some index) :
    heardIn c [(k, o)] = [(index, o)] := by
  simp [heardIn, h]

/-- What of these loops is of a combinator. -/
def loopsOf (c : Nat) (registers : List (Nat × Nat × List Nat)) : List (Nat × List Nat) :=
  registers.filterMap fun r => if r.1 = c then some r.2 else none

theorem loopsOf_cons (c index : Nat) (todo : List Nat) (rest : List (Nat × Nat × List Nat)) :
    loopsOf c ((c, index, todo) :: rest) = (index, todo) :: loopsOf c rest :=
  List.filterMap_cons_some (if_pos rfl)

theorem loopsOf_cons_ne {c c' : Nat} (h : c' ≠ c) (r : Nat × List Nat) (rest : List (Nat × Nat × List Nat)) :
    loopsOf c ((c', r) :: rest) = loopsOf c rest :=
  List.filterMap_cons_none (if_neg h)

theorem target_of_heardBy {c index : Nat} {k : Callback} (h : k.heardBy c = some index) :
    k.target = some c := by
  cases k with
  | gather m c' index' =>
    simp only [Callback.heardBy] at h
    split at h
    · rename_i heq
      exact congrArg some heq
    · cases h
  | gatherError m c' index' =>
    simp only [Callback.heardBy] at h
    split at h
    · rename_i heq
      exact congrArg some heq
    · cases h
  | user kind n => cases h
  | reject n => cases h
  | catcher n => cases h
  | final n => cases h
  | forward n => cases h
  | pass m n => cases h
  | passError m n => cases h

namespace State

variable {s s' t : State V Err} {c : Nat}

/-- The loops of a combinator that are not through: there is at most one. -/
def loops (s : State V Err) (c : Nat) : List (Nat × List Nat) := loopsOf c s.registers

/-- The inputs that the loop of a combinator has still to come to. -/
def awaiting (s : State V Err) (c : Nat) : List Nat := (s.loops c).flatMap Prod.snd

/-- How often a promise was settled, and with what. -/
def settlements (s : State V Err) (p : Nat) : List (Outcome V Err) :=
  (s.settled.filter fun x => x.1 == p).map Prod.snd

/-- No input is settled while the loop has still to come to another one that is settled. -/
def InTurn (s : State V Err) (c : Nat) (inputs : List Nat) : Effect V Err → Prop
  | .settle p _ => p ∈ inputs → s.fate p = none → ∀ q ∈ s.awaiting c, q ≠ p → s.fate q = none
  | .idle | .attach _ _ _ _ | .catch_ _ _ => True

/-- Nothing is written over a closure of the combinator while it waits, each finds the value that it is for,
the inputs are settled in turn, and the program does not settle the result itself. -/
def KeepsGather (env : Values V Err) (c : Nat) (inputs : List Nat) (s : State V Err) (a : Act V Err) : Prop :=
  (∀ e ∈ s.effect env a, s.SparesThose (Callback.Hears c) e ∧ s.InTurn c inputs e) ∧ s.LeavesSettling [c] a

/-- What the beginning of a step does to a combinator. -/
inductive Turn (env : Values V Err) (c : Nat) (g : Gather V) (s s' : State V Err) : Effect V Err → Prop
  | hears (index : Nat) (o : Outcome V Err) (hpending : heardIn c s.pending = [(index, o)])
      (hloops : s'.loops c = s.loops c)
      (hgathers : s'.gathers c = some (g.hear env (s.fate c).isSome index o).1) :
      Turn env c g s s' ((g.hear env (s.fate c).isSome index o).2.elim .idle (.settle c))
  | registers (index p : Nat) (todo : List Nat) (rest : List (Nat × List Nat)) (leaves : V)
      (hpending : heardIn c s.pending = []) (hloops : s.loops c = (index, p :: todo) :: rest)
      (hloops' : s'.loops c = (index + 1, todo) :: rest) (hgathers : s'.gathers c = some g) :
      Turn env c g s s' (.attach p (.gather s.next c index) (some (.gatherError s.next c index)) leaves)
  | other (e : Effect V Err) (hpending : heardIn c s.pending = [])
      (hloops : s'.loops c = s.loops c ∨ ∃ index, s.loops c = (index, []) :: s'.loops c)
      (hgathers : s'.gathers c = some g)
      (hsettle : ∀ o, e = .settle c o → (s.fate c).isSome = true) (hmisses : e.Misses c) :
      Turn env c g s s' e

/-! ## Nobody else settles the result -/

theorem Woven.called_gathers (h : s.Woven env) (kind : Kind) {n : Nat}
    (hcalled : 0 < s.calls.countP fun call => call.1 == .user kind n) : s.gathers n = none := by
  obtain ⟨⟨k, o⟩, hmem, hk⟩ := List.countP_pos_iff.mp hcalled
  obtain rfl : k = .user kind n := beq_iff_eq.mp hk
  obtain ⟨p, hp⟩ := h.sound.called _ o hmem
  exact h.registered.user p kind n hp

/-- A function that has not returned was attached by `then`. -/
theorem Woven.job_gathers (h : s.Woven env) {kind : Kind} {n : Nat} (hmem : (kind, n) ∈ s.jobs) :
    s.gathers n = none := by
  refine h.called_gathers kind ?_
  have hpos : 0 < s.jobs.count (kind, n) := List.count_pos_iff.mpr hmem
  rw [h.ran kind n]
  omega

theorem Woven.passes_gathers (h : s.Woven env) {k : Callback} {n : Nat} {o : Outcome V Err}
    (hmem : (k, o) ∈ s.pending) (hk : k.Passes n) : s.gathers n = none := by
  obtain ⟨q, hq⟩ := h.sound.called k o (h.handed.pending _ hmem)
  rcases hk with rfl | ⟨m, hm⟩
  · obtain ⟨kind, hkind⟩ := h.wired.users q n hq
    exact h.registered.user q kind n hkind
  · obtain ⟨kind, hret⟩ := h.wired.back q k m n hq hm
    refine h.called_gathers kind ?_
    rw [← length_told]
    exact h.ran.called hret

theorem loops_of_registers (h : s'.registers = s.registers) : s'.loops c = s.loops c := by
  rw [loops, loops, h]

theorem heardBy_of_passes {k : Callback} {n : Nat} (hk : k.Passes n) : k.heardBy c = none := by
  rcases hk with rfl | ⟨m, rfl | rfl⟩ <;> rfl

theorem heardBy_of_target {k : Callback} (hk : k.target = none) : k.heardBy c = none := by
  cases h : k.heardBy c with
  | none => rfl
  | some index =>
    rw [target_of_heardBy h] at hk
    cases hk

theorem turn {a : Act V Err} {e : Effect V Err} {g : Gather V} (hw : s.Woven env)
    (hg : s.gathers c = some g) (hleaves : s.LeavesSettling [c] a) (hbegan : Began env s s' a e) :
    Turn env c g s s' e := by
  have hc : c < s.next := hw.registered.lt c (by rw [hg]; rfl)
  have hne : s.next ≠ c := (Nat.ne_of_lt hc).symm
  have hpending : s.pending = s.top := hw.ordered
  have hidle : s.top = [] → heardIn c s.pending = [] := by
    intro htop
    rw [hpending, htop]
    rfl
  have hdeaf : ∀ k o, s.top = [(k, o)] → k.heardBy c = none → heardIn c s.pending = [] := by
    intro k o htop hk
    rw [hpending, htop]
    refine heardIn_eq_nil fun call hcall => ?_
    obtain rfl := List.mem_singleton.mp hcall
    exact hk
  have hother : ∀ e : Effect V Err, heardIn c s.pending = [] → s'.registers = s.registers →
      s'.gathers c = some g → (∀ o, e = .settle c o → (s.fate c).isSome = true) → e.Misses c →
      Turn env c g s s' e :=
    fun e hnil hregisters hgathers hsettle hmisses =>
      .other e hnil (.inl (loops_of_registers hregisters)) hgathers hsettle hmisses
  cases hbegan with
  | idle a hkept =>
    refine hother _ (hidle hkept.top) hkept.registers (hkept.gathers ▸ hg) (fun o ho => ?_) trivial
    cases ho
  | then_ p kind hasReject leaves hkept =>
    refine hother _ (hidle hkept.top) hkept.registers (hkept.gathers ▸ hg) (fun o ho => ?_) ⟨rfl, ?_⟩
    · cases ho
    · intro k hk
      cases kind with
      | nothing =>
        cases hasReject with
        | false => cases hk
        | true => exact Option.some.inj hk ▸ rfl
      | value => exact Option.some.inj hk ▸ rfl
      | promise isVoid => exact Option.some.inj hk ▸ rfl
  | catcher p hkept =>
    refine hother _ (hidle hkept.top) hkept.registers (hkept.gathers ▸ hg) (fun o ho => ?_) rfl
    cases ho
  | settle p o hkept =>
    refine hother _ (hidle hkept.top) hkept.registers (hkept.gathers ▸ hg) (fun o ho => ?_) trivial
    cases ho
    exact hleaves List.mem_cons_self
  | gatherNone mode isVoid hgathers _ _ hregisters _ _ htop =>
    refine hother _ (hidle htop) hregisters ?_ (fun o ho => ?_) trivial
    · rw [hgathers, Function.update_of_ne hne.symm]
      exact hg
    · cases ho
      exact absurd rfl hne
  | gather mode isVoid inputs hgathers _ _ _ hregisters _ _ _ htop =>
    refine .other _ (hidle htop) (.inl ?_) ?_ (fun o ho => ?_) trivial
    · rw [loops, hregisters, loopsOf_cons_ne hne, loops]
    · rw [hgathers, Function.update_of_ne hne.symm]
      exact hg
    · cases ho
  | ret kind n result leaves e hgathers hjobs _ hregisters _ htop he =>
    have hn : n ≠ c := by
      rintro rfl
      have hnone := hw.job_gathers (hjobs.symm ▸ List.mem_cons_self)
      rw [hg] at hnone
      cases hnone
    cases kind with
    | nothing =>
      cases result with
      | nothing =>
        obtain rfl : e = .idle := he
        refine hother _ (hidle htop) hregisters (hgathers ▸ hg) (fun o ho => ?_) trivial
        cases ho
      | value v => exact he.elim
      | promise q => exact he.elim
    | value =>
      cases result with
      | nothing => exact he.elim
      | value v =>
        obtain rfl : e = .settle n (.resolved v) := he
        refine hother _ (hidle htop) hregisters (hgathers ▸ hg) (fun o ho => ?_) trivial
        cases ho
        exact absurd rfl hn
      | promise q => exact he.elim
    | promise isVoid =>
      cases result with
      | nothing => exact he.elim
      | value v => exact he.elim
      | promise q =>
        obtain ⟨-, -, rfl⟩ := he
        refine hother _ (hidle htop) hregisters (hgathers ▸ hg) (fun o ho => ?_) ⟨rfl, fun k hk => ?_⟩
        · cases ho
        · exact Option.some.inj hk ▸ rfl
  | user kind n o leaves htaken hgathers =>
    refine hother _ (hdeaf _ o htaken.top rfl) htaken.registers (hgathers ▸ hg) (fun o ho => ?_) trivial
    cases ho
  | other k o leaves htaken hk hgathers =>
    refine hother _ (hdeaf k o htaken.top (heardBy_of_target hk)) htaken.registers (hgathers ▸ hg)
      (fun o ho => ?_) trivial
    cases ho
  | pass k n o leaves htaken hk hgathers =>
    refine hother _ (hdeaf k o htaken.top (heardBy_of_passes hk)) htaken.registers (hgathers ▸ hg)
      (fun o ho => ?_) trivial
    cases ho
    have hnone := hw.passes_gathers (htaken.pending.symm ▸ List.mem_cons_self) hk
    rw [hg] at hnone
    cases hnone
  | gathered k m c' index o leaves htaken hk hjobs e he =>
    by_cases hcc : c' = c
    · subst hcc
      rw [hg] at he
      obtain ⟨hgathers, rfl⟩ := he
      rw [hw.sound.isFinished] at hgathers ⊢
      refine .hears index o ?_ (loops_of_registers htaken.registers) ?_
      · rw [hpending, htaken.top]
        refine heardIn_singleton o ?_
        rcases hk with rfl | rfl <;> exact if_pos rfl
      · rw [hgathers, Function.update_self]
    · have hdeaf' : heardIn c s.pending = [] := by
        refine hdeaf k o htaken.top ?_
        rcases hk with rfl | rfl <;> exact if_neg hcc
      cases hg' : s.gathers c' with
      | none =>
        rw [hg'] at he
        obtain ⟨hgathers, rfl⟩ := he
        refine hother _ hdeaf' htaken.registers (hgathers ▸ hg) (fun o ho => ?_) trivial
        cases ho
      | some g' =>
        rw [hg'] at he
        obtain ⟨hgathers, rfl⟩ := he
        refine hother _ hdeaf' htaken.registers ?_ ?_ ?_
        · rw [hgathers, Function.update_of_ne (Ne.symm hcc)]
          exact hg
        · intro o' ho'
          cases hr : (g'.hear env (s.cells c').isFinished index o).2 with
          | none =>
            rw [hr] at ho'
            cases ho'
          | some o'' =>
            rw [hr] at ho'
            cases ho'
            exact absurd rfl hcc
        · cases (g'.hear env (s.cells c').isFinished index o).2 <;> trivial
  | through c' index leaves hregisters hgathers _ _ _ htop =>
    refine .other _ (hidle htop) ?_ (hgathers ▸ hg) (fun o ho => ?_) trivial
    · by_cases hcc : c' = c
      · subst hcc
        right
        refine ⟨index, ?_⟩
        rw [loops, hregisters, loopsOf_cons, loops]
      · left
        rw [loops, loops, hregisters, loopsOf_cons_ne hcc]
    · cases ho
  | next c' index p todo leaves rest hregisters hregisters' hgathers _ _ _ htop =>
    by_cases hcc : c' = c
    · subst hcc
      refine .registers index p todo (loopsOf c' rest) leaves (hidle htop) ?_ ?_ (hgathers ▸ hg)
      · rw [loops, hregisters, loopsOf_cons]
      · rw [loops, hregisters', loopsOf_cons]
    · refine .other _ (hidle htop) (.inl ?_) (hgathers ▸ hg) (fun o ho => ?_) ⟨if_neg hcc, fun k hk => ?_⟩
      · rw [loops, loops, hregisters, hregisters', loopsOf_cons_ne hcc, loopsOf_cons_ne hcc]
      · cases ho
      · exact Option.some.inj hk ▸ if_neg hcc

/-! ## The closures are called as the inputs arrive -/

variable {mode : Mode} {isVoid : Bool} {inputs done todo : List Nat} {before later : List (Nat × Outcome V Err)}

/-- The result and what the closures share are as the calls have left them, in this order. -/
def Replays (env : Values V Err) (mode : Mode) (isVoid : Bool) (inputs : List Nat) (c : Nat)
    (called : List (Nat × Outcome V Err)) (s : State V Err) : Prop :=
  ∃ g, s.gathers c = some g ∧
    (g, s.fate c) = called.foldl (hearStep env isVoid) (.start env mode isVoid inputs, none)

/-- The loop of a combinator has come through `done`; `before` is what was settled when it was called, and
`later` what was settled since. -/
structure Combining (env : Values V Err) (mode : Mode) (isVoid : Bool) (inputs : List Nat) (c : Nat)
    (before : List (Nat × Outcome V Err)) (done todo : List Nat) (later : List (Nat × Outcome V Err))
    (s : State V Err) : Prop where
  split : done ++ todo = inputs
  loops : s.loops c = [(done.length, todo)] ∨ todo = [] ∧ s.loops c = []
  settled : s.settled = before ++ later
  late : Late inputs todo before later
  logged : ∀ p k index, (p, k) ∈ s.log → k.heardBy c = some index → p ∈ done ∧ index = inputs.idxOf p
  closures : ∀ p ∈ done, ∀ side, ∃ k, (p, k) ∈ s.log ∧ k.Hears c = true ∧ k.onReject = side
  heard : heardIn c s.calls = (arrivals before s.settled done).map fun x => (inputs.idxOf x.1, x.2)
  known : ∀ p ∈ c :: inputs, p < s.next ∧ (s.cells p).isVoid = isVoid
  replays : ∃ called, heardIn c s.calls = called ++ heardIn c s.pending ∧
    Replays env mode isVoid inputs c called s

theorem Combining.awaiting (h : Combining env mode isVoid inputs c before done todo later s) :
    s.awaiting c = todo := by
  rw [State.awaiting]
  rcases h.loops with heq | ⟨rfl, heq⟩
  · rw [heq]
    exact List.append_nil todo
  · rw [heq]
    rfl

theorem fate_step_of_ne {e : Effect V Err} (hprep : Prepared env s s' e) (hperf : Performed env s' e t)
    (hsettle : ∀ o, e = .settle c o → (s.fate c).isSome = true) : t.fate c = s.fate c := by
  rw [← hprep.quiet.fate]
  cases hperf with
  | idle => rfl
  | late => rfl
  | @settles p o _ hnone hset =>
    rw [hset.fate hnone]
    refine if_neg ?_
    rintro rfl
    have hsome := hsettle o rfl
    rw [← hprep.quiet.fate, hnone] at hsome
    cases hsome
  | attaches hatt => exact hatt.fate c
  | catches hcatch => exact hcatch.fate c

/-- What a step does to the result is what the closure that it calls says. -/
theorem Turn.replays {e : Effect V Err} {g : Gather V} {called : List (Nat × Outcome V Err)}
    (hturn : Turn env c g s s' e) (hprep : Prepared env s s' e) (hperf : Performed env s' e t)
    (hc : c < s.next) (hvoid : (s.cells c).isVoid = isVoid)
    (hfold : (g, s.fate c) = called.foldl (hearStep env isVoid) (.start env mode isVoid inputs, none)) :
    Replays env mode isVoid inputs c (called ++ heardIn c s.pending) t := by
  have hgathers := hperf.entered.gathers
  cases hturn with
  | hears index o hpending hloops hg =>
    refine ⟨_, (congrFun hgathers c).trans hg, ?_⟩
    rw [hpending, List.foldl_append, ← hfold, List.foldl_cons, List.foldl_nil, hearStep]
    refine Prod.ext rfl ?_
    dsimp only
    cases hr : (g.hear env (s.fate c).isSome index o).2 with
    | none =>
      rw [hr] at hperf
      cases hperf
      rw [hprep.quiet.fate, Option.map_none, Option.or_none]
    | some o' =>
      rw [hr] at hperf
      cases hperf with
      | late _ _ hsome =>
        rw [hprep.quiet.fate] at hsome ⊢
        obtain ⟨o'', ho''⟩ := Option.isSome_iff_exists.mp hsome
        rw [ho'']
        rfl
      | settles hnone hset =>
        rw [hset.fate hnone, if_pos rfl, ← hprep.quiet.fate, hnone, (hprep.quiet.like hc).isVoid, hvoid]
        rfl
  | registers index p todo rest leaves hpending hloops hloops' hg =>
    refine ⟨g, (congrFun hgathers c).trans hg, ?_⟩
    rw [hpending, List.append_nil, ← hfold, fate_step_of_ne hprep hperf fun o ho => by cases ho]
  | other e hpending hloops hg hsettle hmisses =>
    refine ⟨g, (congrFun hgathers c).trans hg, ?_⟩
    rw [hpending, List.append_nil, ← hfold, fate_step_of_ne hprep hperf hsettle]

/-- A step that attaches nothing for the combinator leaves its closures where they are. -/
theorem mem_log_of_misses {e : Effect V Err} (hmisses : e.Misses c) (hprep : Prepared env s s' e)
    (hperf : Performed env s' e t) {p index : Nat} {k : Callback} (hk : k.heardBy c = some index)
    (hmem : (p, k) ∈ t.log) : (p, k) ∈ s.log := by
  rw [← hprep.quiet.log]
  have hne : ∀ k', k'.heardBy c = none → k ≠ k' := by
    rintro k' hk' rfl
    rw [hk] at hk'
    cases hk'
  cases hperf with
  | idle => exact hmem
  | late => exact hmem
  | settles hnone hset => exact hset.log ▸ hmem
  | attaches hatt =>
    rcases hatt.mem_log.mp hmem with hold | ⟨-, hk' | hk'⟩
    · exact hold
    · exact absurd hk' (hne _ hmisses.1)
    · exact absurd rfl (hne k (hmisses.2 k hk'))
  | catches hcatch =>
    rcases hcatch.mem_log.mp hmem with hold | ⟨-, hk'⟩
    · exact hold
    · exact absurd hk' (hne _ hmisses)

/-- What waits in a promise for the combinator is called when it is settled. -/
theorem Combining.heard_slot {p : Nat} (o : Outcome V Err)
    (h : Combining env mode isVoid inputs c before done todo later s) (hs : s.Sound env) (hs' : s'.Sound env)
    (hserved : s.ServedThose (Callback.Hears c)) (hquiet : Quiet env s s') (hnone : s.fate p = none) :
    heardIn c (((s'.cells p).slot o.isRejected).toList.map fun k => (k, o))
      = if p ∈ done then [(inputs.idxOf p, o)] else [] := by
  by_cases hp : p ∈ done
  · obtain ⟨k, hmem, hears, hside⟩ := h.closures p hp o.isRejected
    obtain ⟨hslot, -⟩ := (hserved k hears p hmem).pending hnone
    obtain ⟨index, hk⟩ := Option.isSome_iff_exists.mp hears
    rw [if_pos hp, hquiet.slot hs (hs.log_lt p k hmem).1 hnone, ← hside, hslot,
      ← (h.logged p k index hmem hk).2]
    exact heardIn_singleton o hk
  · rw [if_neg hp]
    refine heardIn_eq_nil fun call hcall => ?_
    obtain ⟨k, hk, rfl⟩ := List.mem_map.mp hcall
    have hmem := (hs'.slot p _ k (Option.mem_toList.mp hk)).1
    rw [hquiet.log] at hmem
    cases hheard : k.heardBy c with
    | none => rfl
    | some index => exact absurd (h.logged p k index hmem hheard).1 hp

theorem Combining.known_step {e : Effect V Err}
    (h : Combining env mode isVoid inputs c before done todo later s) (hprep : Prepared env s s' e)
    (hperf : Performed env s' e t) : ∀ p ∈ c :: inputs, p < t.next ∧ (t.cells p).isVoid = isVoid := by
  intro p hp
  obtain ⟨hlt, hvoid⟩ := h.known p hp
  exact ⟨Nat.lt_of_lt_of_le hlt (later_step hprep hperf).next, (isVoid_step hprep hperf hlt).trans hvoid⟩

/-- A step that attaches nothing for the combinator. -/
theorem Combining.misses {e : Effect V Err}
    (h : Combining env mode isVoid inputs c before done todo later s) (hs : s.Sound env)
    (hserved : s.ServedThose (Callback.Hears c)) (hprep : Prepared env s s' e) (hperf : Performed env s' e t)
    (hmisses : e.Misses c) (hinTurn : s.InTurn c inputs e)
    (hloops : t.loops c = [(done.length, todo)] ∨ todo = [] ∧ t.loops c = [])
    (hreplays : ∃ called, heardIn c t.calls = called ++ heardIn c t.pending ∧
      Replays env mode isVoid inputs c called t) :
    ∃ later', Combining env mode isVoid inputs c before done todo later' t := by
  have hkeep : ∀ later', t.settled = before ++ later' → Late inputs todo before later' →
      heardIn c t.calls = (arrivals before t.settled done).map (fun x => (inputs.idxOf x.1, x.2)) →
      Combining env mode isVoid inputs c before done todo later' t := by
    intro later' hsettled hlate hheard
    refine ⟨h.split, hloops, hsettled, hlate, fun p k index hmem hk => ?_, fun p hp side => ?_, hheard,
      h.known_step hprep hperf, hreplays⟩
    · exact h.logged p k index (mem_log_of_misses hmisses hprep hperf hk hmem) hk
    · obtain ⟨k, hmem, hk⟩ := h.closures p hp side
      exact ⟨k, hperf.mem_log p k (hprep.quiet.log.symm ▸ hmem), hk⟩
  have hsame : ∀ new, t.settled = s'.settled → t.calls = s'.calls ++ new → heardIn c new = [] →
      ∃ later', Combining env mode isVoid inputs c before done todo later' t := by
    intro new hsettled hcalls hnew
    rw [hprep.quiet.settled] at hsettled
    refine ⟨later, hkeep later (hsettled.trans h.settled) h.late ?_⟩
    rw [hcalls, hprep.quiet.calls, heardIn_append, hnew, List.append_nil, hsettled]
    exact h.heard
  cases hperf with
  | idle => exact hsame [] rfl (List.append_nil _).symm rfl
  | late => exact hsame [] rfl (List.append_nil _).symm rfl
  | attaches hatt =>
    refine hsame _ hatt.settled hatt.calls (heardIn_eq_nil fun call hcall => ?_)
    rcases mem_direct (o := call.2) hcall with hk | hk
    · exact hk ▸ hmisses.1
    · exact hmisses.2 _ hk
  | catches hcatch =>
    refine hsame _ hcatch.settled hcatch.calls (heardIn_eq_nil fun call hcall => ?_)
    split at hcall
    · obtain rfl := List.mem_singleton.mp hcall
      exact hmisses
    · cases hcall
  | @settles p o _ hnone hset =>
    have hfate : s.fate p = none := (hprep.quiet.fate p).symm.trans hnone
    have hlookup : ∀ q, s.fate q = (before ++ later).lookup q := fun q => by rw [fate, h.settled]
    have hsettled := hset.settled
    rw [hprep.quiet.settled, h.settled, List.append_assoc] at hsettled
    refine ⟨_, hkeep _ hsettled (h.late.settled ((hlookup p).symm.trans hfate) fun hp q hq hne => ?_) ?_⟩
    · rw [← hlookup]
      exact hinTurn hp hfate q (h.awaiting.symm ▸ hq) hne
    · rw [hset.calls, heardIn_append, hprep.quiet.calls, h.heard, hsettled, arrivals_settled, List.map_append,
        h.settled, h.heard_slot _ hs (hs.quiet hprep.quiet hprep.framed) hserved hprep.quiet hfate]
      congr 1
      split <;> rfl

/-- What is called when something is attached to a promise whose value is still there. -/
theorem direct_of_intact {p : Nat} {a b : Callback} (hs : s.Sound env) (hintact : s.Intact p) :
    s.direct p a (some b)
      = ((s.fate p).map fun o => (if o.isRejected then b else a, o)).toList := by
  have hagrees := hs.agrees p
  cases hfate : s.fate p with
  | none =>
    rw [hfate] at hagrees
    simp [direct, hagrees.1, hagrees.2]
  | some o =>
    rw [hfate] at hagrees
    cases o with
    | resolved v =>
      have hval : (s.cells p).val = v := by simpa only [Intact, hfate] using hintact
      simp [direct, hagrees.1, hagrees.2.1, hval, Outcome.isRejected]
    | rejected e => simp [direct, hagrees.2.1, hagrees.2.2, Outcome.isRejected]

/-- The loop comes to the next input. -/
theorem Combining.registers {p m : Nat} {leaves : V}
    (h : Combining env mode isVoid inputs c before done (p :: todo) later s) (hs : s.Sound env)
    (hnodup : inputs.Nodup) (hintact : s.Intact p)
    (hprep : Prepared env s s'
      (.attach p (.gather m c done.length) (some (.gatherError m c done.length)) leaves))
    (hatt : Attaches s' p (.gather m c done.length) (some (.gatherError m c done.length)) t)
    (hloops : t.loops c = [((done ++ [p]).length, todo)])
    (hreplays : ∃ called, heardIn c t.calls = called ++ heardIn c t.pending ∧
      Replays env mode isVoid inputs c called t) :
    Combining env mode isVoid inputs c before (done ++ [p]) todo later t := by
  have hsplit := h.split
  have hp : p ∉ done := by
    rw [← hsplit, List.nodup_append] at hnodup
    exact fun hmem => hnodup.2.2 p hmem p List.mem_cons_self rfl
  have hindex : done.length = inputs.idxOf p := by
    rw [← hsplit, List.idxOf_append_of_notMem hp, List.idxOf_cons_self, Nat.add_zero]
  have hheardBy : ∀ k : Callback, k = .gather m c done.length ∨ k = .gatherError m c done.length →
      k.heardBy c = some (inputs.idxOf p) := by
    rintro k (rfl | rfl)
    · exact (if_pos rfl).trans (congrArg some hindex)
    · exact (if_pos rfl).trans (congrArg some hindex)
  have hsettled : t.settled = before ++ later := by
    rw [hatt.settled, hprep.quiet.settled, h.settled]
  refine ⟨?_, .inl hloops, hsettled, h.late.tail, fun q k index hmem hk => ?_, fun q hq side => ?_, ?_,
    h.known_step hprep (.attaches hatt), hreplays⟩
  · rw [List.append_assoc]
    exact hsplit
  · rcases hatt.mem_log.mp hmem with hold | ⟨rfl, hnew⟩
    · rw [hprep.quiet.log] at hold
      obtain ⟨hdone, hidx⟩ := h.logged q k index hold hk
      exact ⟨List.mem_append_left _ hdone, hidx⟩
    · refine ⟨List.mem_append_right _ (List.mem_singleton_self _), ?_⟩
      rw [hheardBy k (hnew.imp_right fun heq => (Option.some.inj heq).symm)] at hk
      exact (Option.some.inj hk).symm
  · rcases List.mem_append.mp hq with hq | hq
    · obtain ⟨k, hmem, hk⟩ := h.closures q hq side
      exact ⟨k, hatt.mem_log.mpr (.inl (hprep.quiet.log.symm ▸ hmem)), hk⟩
    · obtain rfl := List.mem_singleton.mp hq
      cases side with
      | false =>
        refine ⟨.gather m c done.length, hatt.mem_log.mpr (.inr ⟨rfl, .inl rfl⟩), ?_, rfl⟩
        rw [Callback.Hears, hheardBy _ (.inl rfl)]
        rfl
      | true =>
        refine ⟨.gatherError m c done.length, hatt.mem_log.mpr (.inr ⟨rfl, .inr rfl⟩), ?_, rfl⟩
        rw [Callback.Hears, hheardBy _ (.inr rfl)]
        rfl
  · have hsub : ∀ q ∈ done ++ [p], q ∈ inputs := by
      intro q hq
      rw [← hsplit, List.append_cons]
      exact List.mem_append_left _ hq
    rw [hatt.calls, heardIn_append, hprep.quiet.calls, h.heard, hsettled, h.settled,
      arrivals_registered hp hsub h.late, List.map_append,
      direct_of_intact (hs.quiet hprep.quiet hprep.framed) (hprep.quiet.intact (hprep.admissible.1) hintact),
      hprep.quiet.fate, fate, h.settled]
    congr 1
    cases (before ++ later).lookup p with
    | none => rfl
    | some o =>
      refine heardIn_singleton o (hheardBy _ ?_)
      cases o with
      | resolved v => exact .inl rfl
      | rejected e => exact .inr rfl

theorem Combining.step {a : Act V Err} (h : Combining env mode isVoid inputs c before done todo later s)
    (hw : s.Woven env) (hserved : s.ServedThose (Callback.Hears c)) (hnodup : inputs.Nodup)
    (hkeeps : KeepsGather env c inputs s a) (hstep : s.step env a = some t) :
    ∃ done todo later, Combining env mode isVoid inputs c before done todo later t := by
  obtain ⟨s', e, hbegan, hprep, hperf, heffect⟩ := step_began hw.sound hstep
  obtain ⟨called, hcalled, g, hg, hfold⟩ := h.replays
  have hturn := turn hw hg hkeeps.2 hbegan
  obtain ⟨hspares, hinTurn⟩ := hkeeps.1 e heffect
  have hent := hperf.entered
  have hreplays : ∃ called, heardIn c t.calls = called ++ heardIn c t.pending ∧
      Replays env mode isVoid inputs c called t := by
    obtain ⟨hc, hvoid⟩ := h.known c List.mem_cons_self
    refine ⟨heardIn c s.calls, ?_, hcalled.symm ▸ hturn.replays hprep hperf hc hvoid hfold⟩
    rw [hent.calls, hent.pending, hw.ordered.began hbegan, List.append_nil, heardIn_append, hprep.quiet.calls]
  have hloops : t.loops c = s'.loops c := loops_of_registers hent.registers
  cases hturn with
  | hears index o _ hloops' =>
    have hmisses : ∀ r : Option (Outcome V Err), (r.elim .idle (.settle c) : Effect V Err).Misses c := by
      intro r
      cases r <;> trivial
    obtain ⟨later', hlater⟩ := h.misses hw.sound hserved hprep hperf (hmisses _) hinTurn
      (by rw [hloops, hloops']; exact h.loops) hreplays
    exact ⟨done, todo, later', hlater⟩
  | registers index p todo' rest leaves _ hregister hregister' =>
    rcases h.loops with heq | ⟨-, heq⟩
    · rw [hregister] at heq
      obtain ⟨hpair, rfl⟩ := List.cons.inj heq
      obtain ⟨rfl, rfl⟩ := Prod.mk.inj hpair
      cases hperf with
      | attaches hatt =>
        refine ⟨done ++ [p], todo', later,
          h.registers hw.sound hnodup (hspares.2 ?_) hprep hatt ?_ hreplays⟩
        · rw [Callback.Hears, Callback.heardBy, if_pos rfl]
          rfl
        · rw [hloops, hregister', List.length_append, List.length_singleton]
    · rw [hregister] at heq
      cases heq
  | other e _ hsame _ _ hmisses =>
    obtain ⟨later', hlater⟩ := h.misses hw.sound hserved hprep hperf hmisses hinTurn (by
      rw [hloops]
      rcases hsame with hsame | ⟨index, hpop⟩
      · rw [hsame]
        exact h.loops
      · right
        rcases h.loops with heq | ⟨-, heq⟩
        · rw [hpop] at heq
          obtain ⟨hpair, hnil⟩ := List.cons.inj heq
          exact ⟨(Prod.mk.inj hpair).2.symm, hnil⟩
        · rw [hpop] at heq
          cases heq) hreplays
    exact ⟨done, todo, later', hlater⟩

/-! ## Each promise is settled once -/

def SettledOnce (s : State V Err) : Prop := (s.settled.map Prod.fst).Nodup

theorem SettledOnce.step {a : Act V Err} (h : s.SettledOnce) (hs : s.Sound env)
    (hstep : s.step env a = some t) : t.SettledOnce := by
  obtain ⟨s', e, -, hprep, hperf⟩ := step_cases hs hstep
  have hs' : s'.SettledOnce := by
    unfold SettledOnce
    rw [hprep.quiet.settled]
    exact h
  cases hperf with
  | idle => exact hs'
  | late => exact hs'
  | attaches hatt =>
    unfold SettledOnce
    rw [hatt.settled]
    exact hs'
  | catches hcatch =>
    unfold SettledOnce
    rw [hcatch.settled]
    exact hs'
  | @settles p o _ hnone hset =>
    unfold SettledOnce
    rw [hset.settled, List.map_append, List.nodup_append]
    refine ⟨hs', List.nodup_singleton p, fun q hq q' hq' heq => ?_⟩
    obtain rfl := List.mem_singleton.mp hq'
    obtain ⟨x, hx, rfl⟩ := List.mem_map.mp hq
    have hne := List.lookup_eq_none_iff.mp hnone x hx
    simp [heq] at hne

theorem settlements_of_nodup {l : List (Nat × Outcome V Err)} (h : (l.map Prod.fst).Nodup) (p : Nat) :
    (l.filter fun x => x.1 == p).map Prod.snd = (l.lookup p).toList := by
  induction l with
  | nil => rfl
  | cons x l ih =>
    obtain ⟨q, o⟩ := x
    rw [List.map_cons, List.nodup_cons] at h
    by_cases hq : q = p
    · subst hq
      have hnil : l.filter (fun x => x.1 == q) = [] := by
        refine List.filter_eq_nil_iff.mpr fun x hx heq => h.1 ?_
        exact List.mem_map.mpr ⟨x, hx, beq_iff_eq.mp heq⟩
      rw [List.filter_cons, if_pos (beq_self_eq_true q), hnil, List.lookup_cons_self]
      rfl
    · rw [List.filter_cons, if_neg (by simpa using hq), ih h.2, List.lookup_cons,
        beq_false_of_ne (Ne.symm hq)]

theorem SettledOnce.settlements (h : s.SettledOnce) (p : Nat) : s.settlements p = (s.fate p).toList :=
  settlements_of_nodup h p

theorem SettledOnce.fate_of_mem (h : s.SettledOnce) {p : Nat} {o : Outcome V Err} (hmem : (p, o) ∈ s.settled) :
    s.fate p = some o := by
  rw [← Option.mem_toList, ← h.settlements p, State.settlements, List.mem_map]
  exact ⟨(p, o), List.mem_filter.mpr ⟨hmem, beq_self_eq_true p⟩, rfl⟩

/-! ## The call -/

theorem not_hears_next (hs : s.Sound env) {p : Nat} {k : Callback} (hmem : (p, k) ∈ s.log) :
    k.heardBy s.next = none := by
  cases hk : k.heardBy s.next with
  | none => rfl
  | some index => exact absurd ((hs.log_lt p k hmem).2.2 s.next (target_of_heardBy hk)) (Nat.lt_irrefl _)

theorem heardIn_next (hs : s.Sound env) {calls : List (Callback × Outcome V Err)}
    (hcalls : ∀ call ∈ calls, call ∈ s.calls) : heardIn s.next calls = [] := by
  refine heardIn_eq_nil fun call hcall => ?_
  obtain ⟨p, hp⟩ := hs.called call.1 call.2 (hcalls call hcall)
  exact not_hears_next hs hp

theorem loops_next (hs : s.Framed) : s.loops s.next = [] := by
  refine List.filterMap_eq_nil_iff.mpr fun r hr => if_neg fun heq => ?_
  have hlt := (register_lt hs (show (r.1, r.2.1, r.2.2) ∈ s.registers from hr)).1
  exact absurd (heq ▸ hlt) (Nat.lt_irrefl _)

/-- `all`, `any` or `race` is called. -/
theorem gather_called (hs : s.Sound env) (hcall : s.step env (.gather mode isVoid inputs) = some s') :
    (∀ p ∈ inputs, p < s.next ∧ (s.cells p).isVoid = isVoid) ∧
      (s.gather env mode isVoid inputs).1.perform env (s.gather env mode isVoid inputs).2 = some s' := by
  unfold State.step at hcall
  simp only [prepare] at hcall
  split at hcall
  · rename_i hknown
    refine ⟨fun p hp => ?_, hcall⟩
    simp only [Bool.and_eq_true, List.all_eq_true, List.contains_eq_mem, decide_eq_true_eq,
      beq_iff_eq] at hknown
    exact ⟨hs.framed.promises p (hknown.2 p hp).1, (hknown.2 p hp).2⟩
  · cases hcall

theorem combining_start (hw : s.Woven env) (hcall : s.step env (.gather mode isVoid inputs) = some s')
    (hne : inputs ≠ []) : Combining env mode isVoid inputs s.next s.settled [] inputs [] s' := by
  have hs := hw.sound
  obtain ⟨hinputs, hperform⟩ := gather_called hs hcall
  have hfate : s.fate s.next = none := by
    rw [← Option.not_isSome_iff_eq_none]
    exact fun hsome => absurd (hs.fate_lt _ hsome) (Nat.lt_irrefl _)
  obtain ⟨p, ps, rfl⟩ := List.exists_cons_of_ne_nil hne
  cases hperform
  refine ⟨rfl, .inl ?_, (List.append_nil _).symm, late_start _ _ _, fun q k index hmem hk => ?_,
    fun q hq => absurd hq List.not_mem_nil, ?_, fun q hq => ?_, [], ?_, _, Function.update_self .., ?_⟩
  · show loopsOf s.next ((s.next, 0, p :: ps) :: s.registers) = _
    rw [loopsOf_cons]
    exact congrArg _ (loops_next hs.framed)
  · rw [not_hears_next hs hmem] at hk
    cases hk
  · rw [arrivals_nil]
    exact heardIn_next hs fun _ hcall => hcall
  · rcases List.mem_cons.mp hq with rfl | hq
    · exact ⟨Nat.lt_succ_self _, by simp [gather, push, alloc, setCell, Cell.fresh]⟩
    · obtain ⟨hlt, hvoid⟩ := hinputs q hq
      refine ⟨Nat.lt_succ_of_lt hlt, ?_⟩
      rw [← hvoid]
      exact congrArg Cell.isVoid (Function.update_of_ne (Nat.ne_of_lt hlt) ..)
  · rw [List.nil_append]
    exact (heardIn_next hs fun _ hcall => hcall).trans
      (heardIn_next hs fun call hcall => hw.handed.pending call hcall).symm
  · exact Prod.ext rfl hfate

/-! ## What becomes of the result -/

/-- The settlement of a promise of `void` has no value. -/
theorem SettledOnce.norm (h : s.SettledOnce) (hs : s.Sound env) {p : Nat} {o : Outcome V Err}
    (hmem : (p, o) ∈ s.settled) (hvoid : (s.cells p).isVoid = isVoid) : env.norm isVoid o = o := by
  have hagrees := hs.agrees p
  rw [h.fate_of_mem hmem] at hagrees
  cases o with
  | rejected e => rfl
  | resolved v =>
    rw [Values.norm]
    split
    · rename_i htrue
      rw [hagrees.2.2 (hvoid.trans htrue)]
    · rfl

/-- The loop is through, and it is the program's turn. -/
theorem Combining.fate (h : Combining env mode isVoid inputs c before done todo later s) (hw : s.Woven env)
    (honce : s.SettledOnce) (hne : inputs ≠ []) (hnodup : inputs.Nodup)
    (hfew : mode ≠ .race → inputs.length < 2 ^ 32) (hturn : s.userTurn = true) (hthrough : s.loops c = []) :
    s.fate c = mode.expected env isVoid inputs (arrivals before s.settled inputs) := by
  obtain ⟨called, hcalled, g, -, hfold⟩ := h.replays
  have htodo : todo = [] := by
    rcases h.loops with heq | ⟨hnil, -⟩
    · rw [hthrough] at heq
      cases heq
    · exact hnil
  have hdone : done = inputs := by
    rw [← h.split, htodo, List.append_nil]
  have hheard : called = (arrivals before s.settled inputs).map fun x => (inputs.idxOf x.1, x.2) := by
    rw [hw.ordered.userTurn hturn, h.heard, hdone] at hcalled
    exact (hcalled.trans (List.append_nil called)).symm
  have hsettled := h.settled
  have hmem : ∀ x ∈ arrivals before s.settled inputs, x.1 ∈ inputs ∧ x ∈ s.settled := by
    rw [hsettled]
    exact fun x hx => mem_arrivals hx
  have hkeys : ((arrivals before s.settled inputs).map Prod.fst).Nodup := by
    have honce' : (s.settled.map Prod.fst).Nodup := honce
    rw [hsettled] at honce' ⊢
    exact nodup_arrivals hnodup honce'
  have hreplayed := replayed mode isVoid hne hnodup hfew hkeys (fun x hx => (hmem x hx).1)
    fun x hx => honce.norm hw.sound (hmem x hx).2 (h.known x.1 (List.mem_cons_of_mem c (hmem x hx).1)).2
  rw [← hreplayed.fate, ← hheard]
  exact congrArg Prod.snd hfold

theorem fate_keeps {a : Act V Err} {p : Nat} {o : Outcome V Err} (hs : s.Sound env)
    (hstep : s.step env a = some t) (hfate : s.fate p = some o) : t.fate p = some o := by
  obtain ⟨s', e, -, hprep, hperf⟩ := step_cases hs hstep
  rw [fate_step_of_ne hprep hperf fun _ _ => by rw [hfate]; rfl]
  exact hfate

/-- Without promises the result is settled at once. -/
theorem fate_of_empty (hw : s.Woven env) (hcall : s.step env (.gather mode isVoid []) = some s') :
    s'.fate s.next = mode.expected env isVoid [] ([] : List (Nat × Outcome V Err)) := by
  obtain ⟨-, hperform⟩ := gather_called hw.sound hcall
  have hfate : s.fate s.next = none := by
    rw [← Option.not_isSome_iff_eq_none]
    exact fun hsome => absurd (hw.sound.fate_lt _ hsome) (Nat.lt_irrefl _)
  obtain ⟨t, ht⟩ : ∃ t, (s.gather env mode isVoid []).1 = t := ⟨_, rfl⟩
  have hcell : t.cells s.next = .fresh env isVoid := by
    rw [← ht]
    exact Function.update_self ..
  have hset : Settles env t s.next (env.norm (t.cells s.next).isVoid (mode.ofEmpty env)) s' := by
    have hs' : t.settle env s.next (mode.ofEmpty env) = s' := by
      rw [← ht]
      exact Option.some.inj hperform
    rw [← hs']
    exact State.settles (by rw [hcell]; rfl)
  rw [hset.fate (by rw [← ht]; exact hfate), if_pos rfl, hcell]
  cases mode <;> rfl

instance (s : State V Err) (c : Nat) (inputs : List Nat) (e : Effect V Err) : Decidable (s.InTurn c inputs e) :=
  match e with
  | .settle p _ => inferInstanceAs (Decidable
      (p ∈ inputs → s.fate p = none → ∀ q ∈ s.awaiting c, q ≠ p → s.fate q = none))
  | .idle | .attach _ _ _ _ | .catch_ _ _ => isTrue trivial

instance [DecidableEq V] (c : Nat) (inputs : List Nat) (s : State V Err) (a : Act V Err) :
    Decidable (KeepsGather env c inputs s a) :=
  inferInstanceAs (Decidable
    ((∀ e ∈ s.effect env a, s.SparesThose (Callback.Hears c) e ∧ s.InTurn c inputs e) ∧
      s.LeavesSettling [c] a))

/-- Three promises, of which the second is resolved. -/
def oneSettled : List (Act Nat Nat) := [.create false, .create false, .create false, .settle 1 (.resolved 5)]

/-- The loop of a combinator goes through, then the last and the first are resolved. -/
def twoLater : List (Act Nat Nat) :=
  [.go 0, .go 0, .go 0, .go 0, .go 0, .go 0, .settle 2 (.resolved 6), .go 0, .go 0, .settle 0 (.resolved 4),
    .go 0, .go 0]

/-- A promise that is resolved and has given its value to a continuation. -/
def valueTaken : List (Act Nat Nat) :=
  [.create false, .then_ 0 .nothing false 0, .settle 0 (.resolved 7), .go 0, .ret .nothing 0, .go 0]

/-- A continuation is attached to the input of a combinator, which is resolved then. -/
def attachedBehind : List (Act Nat Nat) :=
  [.go 0, .go 0, .then_ 0 .nothing false 0, .settle 0 (.resolved 7), .go 0, .ret .nothing 0, .go 0]

end State

end Nodeoze.Event.Promises
