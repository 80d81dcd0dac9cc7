import Mathlib.Data.List.Induction
import Mathlib.Data.List.Nodup
import Nodeoze.Event.Promises

/-!
# What `all`, `any` and `race` should come to

The inputs of a combinator arrive in some order.  `Mode.expected` says what the result promise should be
settled with when some of them have arrived; the closures that the combinators attach, called in that order,
come to just this (`replayed`), as long as the counter of 32 bits can count the inputs.
-/

namespace Nodeoze.Event.Promises

open Promise (Outcome)

variable {V Err : Type} {env : Values V Err}

def valueOf : Outcome V Err → Option V
  | .resolved v => some v
  | .rejected _ => none

def errorOf : Outcome V Err → Option Err
  | .resolved _ => none
  | .rejected e => some e

/-- All inputs have arrived. -/
def everyone (inputs : List Nat) (arrived : List (Nat × Outcome V Err)) : Bool :=
  inputs.all fun p => (arrived.lookup p).isSome

/-- What the result should be settled with when these inputs have arrived, in this order.  `all`: with the
first error, or with the values in the order of the inputs when all have arrived.  `race`: as the first
one.  `any`: with the first value, or with the last error when all have arrived. -/
def Mode.expected (env : Values V Err) (isVoid : Bool) (inputs : List Nat)
    (arrived : List (Nat × Outcome V Err)) : Mode → Option (Outcome V Err)
  | .all =>
    match arrived.findSome? fun x => errorOf x.2 with
    | some e => some (.rejected e)
    | none =>
      if everyone inputs arrived then
        some (env.norm isVoid (.resolved (env.pack (inputs.filterMap fun p => (arrived.lookup p).bind valueOf))))
      else none
  | .race => if inputs = [] then some (.rejected env.invalidArgument) else arrived.head?.map Prod.snd
  | .any =>
    if inputs = [] then some (.rejected env.invalidArgument)
    else
      match arrived.findSome? fun x => valueOf x.2 with
      | some v => some (.resolved v)
      | none => if everyone inputs arrived then arrived.getLast?.map Prod.snd else none

/-- One closure is called; the second part is what the result promise is settled with. -/
def hearStep (env : Values V Err) (isVoid : Bool) (r : Gather V × Option (Outcome V Err))
    (x : Nat × Outcome V Err) : Gather V × Option (Outcome V Err) :=
  let heard := r.1.hear env r.2.isSome x.1 x.2
  (heard.1, r.2.or (heard.2.map (env.norm isVoid)))

/-! ## Who has arrived -/

section Arrived

variable {inputs : List Nat} {arrived : List (Nat × Outcome V Err)}

theorem everyone_iff : everyone inputs arrived = true ↔ ∀ p ∈ inputs, p ∈ arrived.map Prod.fst := by
  rw [everyone, List.all_eq_true]
  refine forall₂_congr fun p _ => ?_
  rw [List.lookup_isSome_iff]
  constructor
  · rintro ⟨x, hx, heq⟩
    exact List.mem_map.mpr ⟨x, hx, (beq_iff_eq.mp heq).symm⟩
  · intro hp
    obtain ⟨x, hx, rfl⟩ := List.mem_map.mp hp
    exact ⟨x, hx, beq_self_eq_true _⟩

theorem length_le_inputs (hkeys : (arrived.map Prod.fst).Nodup) (hmem : ∀ x ∈ arrived, x.1 ∈ inputs) :
    arrived.length ≤ inputs.length := by
  have hsub : arrived.map Prod.fst ⊆ inputs := by
    intro p hp
    obtain ⟨x, hx, rfl⟩ := List.mem_map.mp hp
    exact hmem x hx
  have := (List.subperm_of_subset hkeys hsub).length_le
  rwa [List.length_map] at this

theorem everyone_iff_length (hnodup : inputs.Nodup) (hkeys : (arrived.map Prod.fst).Nodup)
    (hmem : ∀ x ∈ arrived, x.1 ∈ inputs) :
    everyone inputs arrived = true ↔ arrived.length = inputs.length := by
  have hle := length_le_inputs hkeys hmem
  have hsub : arrived.map Prod.fst ⊆ inputs := by
    intro p hp
    obtain ⟨x, hx, rfl⟩ := List.mem_map.mp hp
    exact hmem x hx
  rw [everyone_iff]
  constructor
  · intro hall
    have := (List.subperm_of_subset hnodup hall).length_le
    rw [List.length_map] at this
    omega
  · intro hlength p hp
    have hperm := (List.subperm_of_subset hkeys hsub).perm_of_length_le (by rw [List.length_map]; omega)
    exact hperm.mem_iff.mpr hp

theorem lookup_snoc {p q : Nat} {o : Outcome V Err} (hp : p ∉ arrived.map Prod.fst) :
    (arrived ++ [(p, o)]).lookup q = if q = p then some o else arrived.lookup q := by
  rw [List.lookup_append]
  by_cases hq : q = p
  · subst hq
    have hnone : arrived.lookup q = none := by
      rw [List.lookup_eq_none_iff]
      rintro x hx
      rw [bne_iff_ne]
      rintro rfl
      exact hp (List.mem_map.mpr ⟨x, hx, rfl⟩)
    simp [hnone]
  · have hbeq : (q == p) = false := beq_false_of_ne hq
    simp [List.lookup_cons, hbeq, hq]

end Arrived

/-- The value of an input, as far as `result` holds it. -/
def valueIn (env : Values V Err) (arrived : List (Nat × Outcome V Err)) (p : Nat) : V :=
  ((arrived.lookup p).bind valueOf).getD env.blank

theorem set_idxOf {inputs : List Nat} (hnodup : inputs.Nodup) (p : Nat) (f : Nat → V) (v : V) :
    (inputs.map f).set (inputs.idxOf p) v = inputs.map fun q => if q = p then v else f q := by
  refine List.ext_getElem (by simp) fun i hi hi' => ?_
  have hlt : i < inputs.length := by simpa using hi'
  rw [List.getElem_set, List.getElem_map, List.getElem_map]
  by_cases heq : inputs.idxOf p = i
  · rw [if_pos heq]
    subst heq
    rw [if_pos (List.getElem_idxOf hlt)]
  · rw [if_neg heq, if_neg]
    intro hi
    rw [← hi] at heq
    exact heq (hnodup.idxOf_getElem i hlt)

/-! ## What the closures come to -/

/-- What the closures share after these inputs have arrived, and how they have settled the result. -/
structure Replayed (env : Values V Err) (mode : Mode) (isVoid : Bool) (inputs : List Nat)
    (arrived : List (Nat × Outcome V Err)) (r : Gather V × Option (Outcome V Err)) : Prop where
  ofMode : r.1.mode = mode
  ofVoid : r.1.isVoid = isVoid
  total : r.1.total = inputs.length
  count : mode ≠ .race → r.1.count = arrived.length
  result : mode = .all → isVoid = false → (arrived.findSome? fun x => errorOf x.2) = none →
    r.1.result = inputs.map (valueIn env arrived)
  fate : r.2 = mode.expected env isVoid inputs arrived

/-- One more input arrives. -/
structure Arrives (env : Values V Err) (mode : Mode) (isVoid : Bool) (inputs : List Nat)
    (arrived : List (Nat × Outcome V Err)) (p : Nat) (o : Outcome V Err) : Prop where
  nodup : inputs.Nodup
  few : mode ≠ .race → inputs.length < 2 ^ 32
  mem : p ∈ inputs
  new : p ∉ arrived.map Prod.fst
  keys : (arrived.map Prod.fst).Nodup
  inputs : ∀ x ∈ arrived, x.1 ∈ inputs
  norm : env.norm isVoid o = o

section Step

variable {mode : Mode} {isVoid : Bool} {inputs : List Nat} {arrived : List (Nat × Outcome V Err)} {p : Nat}
  {o : Outcome V Err}

theorem Arrives.keys_snoc (h : Arrives env mode isVoid inputs arrived p o) :
    ((arrived ++ [(p, o)]).map Prod.fst).Nodup := by
  rw [List.map_append, List.nodup_append]
  refine ⟨h.keys, List.nodup_singleton p, fun q hq q' hq' heq => ?_⟩
  obtain rfl := List.mem_singleton.mp hq'
  exact h.new (heq ▸ hq)

theorem Arrives.inputs_snoc (h : Arrives env mode isVoid inputs arrived p o) :
    ∀ x ∈ arrived ++ [(p, o)], x.1 ∈ inputs := by
  intro x hx
  rcases List.mem_append.mp hx with hx | hx
  · exact h.inputs x hx
  · rw [List.mem_singleton.mp hx]
    exact h.mem

theorem Arrives.everyone_snoc (h : Arrives env mode isVoid inputs arrived p o) :
    everyone inputs (arrived ++ [(p, o)]) = decide (arrived.length + 1 = inputs.length) := by
  rw [Bool.eq_iff_iff, decide_eq_true_iff, everyone_iff_length h.nodup h.keys_snoc h.inputs_snoc,
    List.length_append, List.length_singleton]

theorem Arrives.not_everyone (h : Arrives env mode isVoid inputs arrived p o) :
    everyone inputs arrived = false := by
  rw [Bool.eq_false_iff, Ne, everyone_iff]
  exact fun hall => h.new (hall p h.mem)

theorem Arrives.ne_nil (h : Arrives env mode isVoid inputs arrived p o) : inputs ≠ [] :=
  List.ne_nil_of_mem h.mem

/-- The counter does not overflow. -/
theorem Arrives.count (h : Arrives env mode isVoid inputs arrived p o) (hmode : mode ≠ .race) :
    (arrived.length + 1) % 2 ^ 32 = arrived.length + 1 := by
  have hle := length_le_inputs h.keys_snoc h.inputs_snoc
  have hfew := h.few hmode
  rw [List.length_append, List.length_singleton] at hle
  exact Nat.mod_eq_of_lt (by omega)

/-- The inputs have all arrived with values. -/
theorem filterMap_valueIn (hall : everyone inputs arrived = true)
    (hnone : (arrived.findSome? fun x => errorOf x.2) = none) :
    (inputs.filterMap fun q => (arrived.lookup q).bind valueOf) = inputs.map (valueIn env arrived) := by
  rw [← List.filterMap_eq_map]
  refine List.filterMap_congr fun q hq => ?_
  obtain ⟨o, ho⟩ := Option.isSome_iff_exists.mp (List.all_eq_true.mp hall q hq)
  have hmem : (q, o) ∈ arrived := by
    rw [List.lookup_eq_some_iff] at ho
    obtain ⟨l₁, l₂, rfl, -⟩ := ho
    simp
  have hvalue := List.findSome?_eq_none_iff.mp hnone (q, o) hmem
  cases o with
  | resolved v => simp [valueIn, ho, valueOf]
  | rejected e => cases hvalue

theorem valueIn_snoc (h : Arrives env mode isVoid inputs arrived p o) (q : Nat) :
    valueIn env (arrived ++ [(p, o)]) q
      = if q = p then (valueOf o).getD env.blank else valueIn env arrived q := by
  unfold valueIn
  rw [lookup_snoc h.new]
  split <;> rfl

theorem findSome_snoc {β : Type} (f : Outcome V Err → Option β) :
    (arrived ++ [(p, o)]).findSome? (fun x => f x.2) = (arrived.findSome? fun x => f x.2).or (f o) := by
  rw [List.findSome?_append]
  congr 1
  cases h : f o <;> simp [h]

theorem counted_count (h : Arrives env mode isVoid inputs arrived p o) (hmode : mode ≠ .race) {g : Gather V}
    (hcount : g.count = arrived.length) : g.counted.count = (arrived ++ [(p, o)]).length := by
  rw [Gather.counted, hcount, h.count hmode, List.length_append, List.length_singleton]

/-- `is_finished` holds when the last input has arrived. -/
theorem counted_complete (h : Arrives env mode isVoid inputs arrived p o) (hmode : mode ≠ .race) {g : Gather V}
    (hcount : g.count = arrived.length) (htotal : g.total = inputs.length) :
    g.counted.complete = everyone inputs (arrived ++ [(p, o)]) := by
  rw [h.everyone_snoc, Gather.complete, Gather.counted, hcount, htotal, h.count hmode]
  rfl

theorem Replayed.snoc_race {r : Gather V × Option (Outcome V Err)}
    (hr : Replayed env .race isVoid inputs arrived r) (h : Arrives env .race isVoid inputs arrived p o) :
    Replayed env .race isVoid inputs (arrived ++ [(p, o)]) (hearStep env isVoid r (inputs.idxOf p, o)) := by
  obtain ⟨g, f⟩ := r
  obtain ⟨hmode, hvoid, htotal, -, -, hfate⟩ := hr
  dsimp only at hmode hvoid htotal hfate
  have hhear : g.hear env f.isSome (inputs.idxOf p) o = (g, if f.isSome then none else some o) := by
    cases o <;> simp [Gather.hear, hmode]
  rw [hearStep, hhear]
  refine ⟨hmode, hvoid, htotal, fun hrace => absurd rfl hrace, fun hall => ?_, ?_⟩
  · cases hall
  · dsimp only
    rw [hfate, Mode.expected, Mode.expected, if_neg h.ne_nil, if_neg h.ne_nil]
    rcases arrived with _ | ⟨x, xs⟩
    · simp [h.norm]
    · simp

theorem Replayed.snoc_any {r : Gather V × Option (Outcome V Err)}
    (hr : Replayed env .any isVoid inputs arrived r) (h : Arrives env .any isVoid inputs arrived p o) :
    Replayed env .any isVoid inputs (arrived ++ [(p, o)]) (hearStep env isVoid r (inputs.idxOf p, o)) := by
  have hany : Mode.any ≠ .race := by decide
  obtain ⟨g, f⟩ := r
  obtain ⟨hmode, hvoid, htotal, hcount, -, hfate⟩ := hr
  dsimp only at hmode hvoid htotal hcount hfate
  have hcount' := counted_count h hany (hcount hany)
  have hcomplete := counted_complete h hany (hcount hany) htotal
  have hhear : (g.hear env f.isSome (inputs.idxOf p) o).1 = g.counted := by
    cases o <;> simp [Gather.hear, hmode]
  refine ⟨?_, ?_, ?_, fun _ => ?_, fun hall => ?_, ?_⟩
  · rw [hearStep, hhear]
    exact hmode
  · rw [hearStep, hhear]
    exact hvoid
  · rw [hearStep, hhear]
    exact htotal
  · rw [hearStep, hhear]
    exact hcount'
  · cases hall
  · have hexpected : f = (arrived.findSome? fun x => valueOf x.2).map .resolved := by
      rw [hfate, Mode.expected, if_neg h.ne_nil, h.not_everyone]
      cases arrived.findSome? fun x => valueOf x.2 <;> rfl
    rw [hearStep, Mode.expected, if_neg h.ne_nil, findSome_snoc]
    cases hvalue : arrived.findSome? fun x => valueOf x.2 with
    | some v =>
      rw [hvalue] at hexpected
      rw [hexpected]
      rfl
    | none =>
      rw [hvalue] at hexpected
      rw [hexpected]
      cases o with
      | resolved v =>
        have hnorm := h.norm
        simp only [Gather.hear, hmode, valueOf, Option.map_none, Option.none_or, Option.isSome_none,
          Bool.false_eq_true, if_false, Option.map_some, hnorm]
      | rejected e =>
        simp only [Gather.hear, hmode, valueOf, hcomplete, Option.map_none, Option.none_or,
          Option.isSome_none, Bool.false_eq_true, if_false]
        cases everyone inputs (arrived ++ [(p, .rejected e)]) <;> simp [Values.norm]

theorem Replayed.snoc_all {r : Gather V × Option (Outcome V Err)}
    (hr : Replayed env .all isVoid inputs arrived r) (h : Arrives env .all isVoid inputs arrived p o) :
    Replayed env .all isVoid inputs (arrived ++ [(p, o)]) (hearStep env isVoid r (inputs.idxOf p, o)) := by
  have hall : Mode.all ≠ .race := by decide
  obtain ⟨g, f⟩ := r
  obtain ⟨hmode, hvoid, htotal, hcount, hresult, hfate⟩ := hr
  dsimp only at hmode hvoid htotal hcount hresult hfate
  have hcount' := counted_count h hall (hcount hall)
  have hcomplete := counted_complete h hall (hcount hall) htotal
  have hexpected : f = (arrived.findSome? fun x => errorOf x.2).map .rejected := by
    rw [hfate, Mode.expected, h.not_everyone]
    cases arrived.findSome? fun x => errorOf x.2 <;> rfl
  cases herror : arrived.findSome? fun x => errorOf x.2 with
  | some e =>
    rw [herror] at hexpected
    have hhear : g.hear env f.isSome (inputs.idxOf p) o = (g.counted, none) := by
      rw [hexpected]
      cases o <;> simp [Gather.hear, hmode]
    rw [hearStep, hhear]
    refine ⟨hmode, hvoid, htotal, fun _ => hcount', fun _ _ hnone => ?_, ?_⟩
    · rw [findSome_snoc errorOf, herror] at hnone
      cases hnone
    · rw [Mode.expected, findSome_snoc errorOf, herror, hexpected]
      rfl
  | none =>
    rw [herror] at hexpected
    subst hexpected
    cases o with
    | rejected e =>
      have hhear : g.hear env false (inputs.idxOf p) (.rejected e) = (g.counted, some (.rejected e)) := by
        simp [Gather.hear, hmode]
      rw [hearStep]
      refine ⟨?_, ?_, ?_, fun _ => ?_, fun _ _ hnone => ?_, ?_⟩
      · exact hhear ▸ hmode
      · exact hhear ▸ hvoid
      · exact hhear ▸ htotal
      · exact hhear ▸ hcount'
      · rw [findSome_snoc errorOf, herror] at hnone
        cases hnone
      · rw [Mode.expected, findSome_snoc errorOf, herror]
        exact hhear ▸ rfl
    | resolved v =>
      have hnone : (arrived ++ [(p, Outcome.resolved v)]).findSome? (fun x : Nat × Outcome V Err => errorOf x.2)
          = none := by
        rw [findSome_snoc errorOf, herror]
        rfl
      have hexpected' : Mode.expected env isVoid inputs (arrived ++ [(p, .resolved v)]) .all
          = if everyone inputs (arrived ++ [(p, .resolved v)]) then
              some (env.norm isVoid
                (.resolved (env.pack (inputs.map (valueIn env (arrived ++ [(p, .resolved v)]))))))
            else none := by
        rw [Mode.expected, hnone]
        by_cases heveryone : everyone inputs (arrived ++ [(p, .resolved v)]) = true
        · dsimp only
          rw [if_pos heveryone, if_pos heveryone, filterMap_valueIn heveryone hnone]
        · dsimp only
          rw [if_neg heveryone, if_neg heveryone]
      rw [hearStep]
      cases isVoid with
      | true =>
        have hhear : g.hear env false (inputs.idxOf p) (.resolved v)
            = (g.counted, if g.counted.complete then some (.resolved env.void) else none) := by
          simp [Gather.hear, hmode, Gather.counted, hvoid]
        refine ⟨?_, ?_, ?_, fun _ => ?_, fun _ hfalse => ?_, ?_⟩
        · exact hhear ▸ hmode
        · exact hhear ▸ hvoid
        · exact hhear ▸ htotal
        · exact hhear ▸ hcount'
        · cases hfalse
        · rw [hexpected', ← hcomplete]
          dsimp only [Option.map_none, Option.isSome_none]
          rw [hhear]
          cases g.counted.complete <;> rfl
      | false =>
        have hset : (g.result.set (inputs.idxOf p) v)
            = inputs.map (valueIn env (arrived ++ [(p, .resolved v)])) := by
          rw [hresult rfl rfl herror, set_idxOf h.nodup]
          exact List.map_congr_left fun q _ => (valueIn_snoc h q).symm
        have hhear : g.hear env false (inputs.idxOf p) (.resolved v)
            = ({ g.counted with result := g.result.set (inputs.idxOf p) v },
              if g.counted.complete then
                some (.resolved (env.pack (g.result.set (inputs.idxOf p) v)))
              else none) := by
          simp [Gather.hear, hmode, Gather.counted, hvoid, Gather.complete]
        refine ⟨?_, ?_, ?_, fun _ => ?_, fun _ _ _ => ?_, ?_⟩
        · exact hhear ▸ hmode
        · exact hhear ▸ hvoid
        · exact hhear ▸ htotal
        · exact hhear ▸ hcount'
        · exact hhear ▸ hset
        · rw [hexpected', ← hcomplete]
          dsimp only [Option.map_none, Option.isSome_none]
          rw [hhear, hset]
          cases g.counted.complete <;> rfl

theorem Replayed.snoc {r : Gather V × Option (Outcome V Err)}
    (hr : Replayed env mode isVoid inputs arrived r) (h : Arrives env mode isVoid inputs arrived p o) :
    Replayed env mode isVoid inputs (arrived ++ [(p, o)]) (hearStep env isVoid r (inputs.idxOf p, o)) := by
  cases mode with
  | all => exact hr.snoc_all h
  | race => exact hr.snoc_race h
  | any => exact hr.snoc_any h

theorem expected_nil (mode : Mode) (isVoid : Bool) (hne : inputs ≠ []) :
    mode.expected env isVoid inputs ([] : List (Nat × Outcome V Err)) = none := by
  have hnot : everyone inputs ([] : List (Nat × Outcome V Err)) = false := by
    rw [Bool.eq_false_iff, Ne, everyone_iff]
    obtain ⟨p, hp⟩ := List.exists_mem_of_ne_nil _ hne
    exact fun hall => absurd (hall p hp) List.not_mem_nil
  cases mode with
  | all => simp [Mode.expected, hnot]
  | race => simp [Mode.expected, hne]
  | any => simp [Mode.expected, hne, hnot]

end Step

/-- The closures, called for inputs that arrive one after another, settle the result as they should. -/
theorem replayed (mode : Mode) (isVoid : Bool) {inputs : List Nat} {arrived : List (Nat × Outcome V Err)}
    (hne : inputs ≠ []) (hnodup : inputs.Nodup) (hfew : mode ≠ .race → inputs.length < 2 ^ 32)
    (hkeys : (arrived.map Prod.fst).Nodup) (hinputs : ∀ x ∈ arrived, x.1 ∈ inputs)
    (hnorm : ∀ x ∈ arrived, env.norm isVoid x.2 = x.2) :
    Replayed env mode isVoid inputs arrived
      ((arrived.map fun x => (inputs.idxOf x.1, x.2)).foldl (hearStep env isVoid)
        (⟨mode, isVoid, inputs.length, 0, List.replicate inputs.length env.blank⟩, none)) := by
  induction arrived using List.reverseRecOn with
  | nil =>
    refine ⟨rfl, rfl, rfl, fun _ => rfl, fun _ _ _ => ?_, (expected_nil mode isVoid hne).symm⟩
    exact (List.map_const' ..).symm
  | append_singleton arrived x ih =>
    obtain ⟨p, o⟩ := x
    rw [List.map_append, List.nodup_append] at hkeys
    obtain ⟨hkeys, -, hdisjoint⟩ := hkeys
    have hr := ih hkeys (fun x hx => hinputs x (List.mem_append_left _ hx))
      fun x hx => hnorm x (List.mem_append_left _ hx)
    rw [List.map_append, List.foldl_append]
    refine hr.snoc ⟨hnodup, hfew, ?_, fun hp => ?_, hkeys, ?_, ?_⟩
    · exact hinputs (p, o) (List.mem_append_right _ (List.mem_singleton_self _))
    · exact hdisjoint p hp p (List.mem_singleton_self _) rfl
    · exact fun x hx => hinputs x (List.mem_append_left _ hx)
    · exact hnorm (p, o) (List.mem_append_right _ (List.mem_singleton_self _))

/-! ## In which order the inputs arrive -/

/-- The inputs that were settled before the combinator was called arrive in the order of the list, and the
others in the order in which they are settled. -/
def arrivals (before settled : List (Nat × Outcome V Err)) (inputs : List Nat) : List (Nat × Outcome V Err) :=
  inputs.filterMap (fun p => (before.lookup p).map fun o => (p, o)) ++
    (settled.drop before.length).filter fun x => inputs.contains x.1

/-- While the loop is at `todo`: an input that it has still to come to and that is settled was settled after
all the others. -/
def Late (inputs todo : List Nat) (before later : List (Nat × Outcome V Err)) : Prop :=
  ∀ q ∈ todo, ((before.lookup q).isSome = true → ∀ x ∈ later, x.1 ∉ inputs) ∧
    ∀ l₁ o l₂, later = l₁ ++ (q, o) :: l₂ → ∀ x ∈ l₂, x.1 ∉ inputs

section Order

variable {before later : List (Nat × Outcome V Err)} {inputs done todo : List Nat} {p : Nat}
  {o : Outcome V Err}

theorem arrivals_append (before later : List (Nat × Outcome V Err)) (inputs : List Nat) :
    arrivals before (before ++ later) inputs
      = inputs.filterMap (fun p => (before.lookup p).map fun o => (p, o)) ++
        later.filter fun x => inputs.contains x.1 := by
  rw [arrivals, List.drop_left]

theorem arrivals_nil (before settled : List (Nat × Outcome V Err)) : arrivals before settled [] = [] := by
  simp [arrivals]

/-- One more promise is settled. -/
theorem arrivals_settled (before later : List (Nat × Outcome V Err)) (inputs : List Nat) (p : Nat)
    (o : Outcome V Err) :
    arrivals before (before ++ (later ++ [(p, o)])) inputs
      = arrivals before (before ++ later) inputs ++ if p ∈ inputs then [(p, o)] else [] := by
  rw [arrivals_append, arrivals_append, List.filter_append, List.append_assoc]
  congr 2
  by_cases hp : p ∈ inputs <;> simp [hp]

theorem filter_snoc_of_ne {l : List (Nat × Outcome V Err)} (h : ∀ x ∈ l, x.1 ≠ p) :
    l.filter (fun x => (done ++ [p]).contains x.1) = l.filter fun x => done.contains x.1 := by
  refine List.filter_congr fun x hx => ?_
  rw [List.contains_eq_mem, List.contains_eq_mem, decide_eq_decide, List.mem_append, List.mem_singleton]
  constructor
  · intro hmem
    exact hmem.resolve_right (h x hx)
  · exact .inl

/-- The loop comes to one more input: if it is settled it arrives now. -/
theorem arrivals_registered (hp : p ∉ done) (hsub : ∀ q ∈ done ++ [p], q ∈ inputs)
    (hlate : Late inputs (p :: todo) before later) :
    arrivals before (before ++ later) (done ++ [p])
      = arrivals before (before ++ later) done
        ++ (((before ++ later).lookup p).map fun o => (p, o)).toList := by
  obtain ⟨hbefore, hlater⟩ := hlate p List.mem_cons_self
  rw [arrivals_append, arrivals_append, List.filterMap_append, List.lookup_append]
  cases hb : before.lookup p with
  | some o =>
    have hnone : ∀ l : List Nat, (∀ q ∈ l, q ∈ inputs) → later.filter (fun x => l.contains x.1) = [] := by
      refine fun l hl => List.filter_eq_nil_iff.mpr fun x hx hmem => ?_
      rw [List.contains_eq_mem, decide_eq_true_eq] at hmem
      exact hbefore (by rw [hb]; rfl) x hx (hl _ hmem)
    rw [hnone _ hsub, hnone done fun q hq => hsub q (List.mem_append_left _ hq)]
    simp [hb]
  | none =>
    cases hl : later.lookup p with
    | none =>
      have hne : ∀ x ∈ later, x.1 ≠ p := by
        rintro x hx rfl
        have := List.lookup_eq_none_iff.mp hl x hx
        simp at this
      rw [filter_snoc_of_ne hne]
      simp [hb]
    | some o =>
      obtain ⟨l₁, l₂, rfl, hne⟩ := List.lookup_eq_some_iff.mp hl
      have hrest := hlater l₁ o l₂ rfl
      have hnil : ∀ l : List Nat, (∀ q ∈ l, q ∈ inputs) → l₂.filter (fun x => l.contains x.1) = [] := by
        refine fun l hl => List.filter_eq_nil_iff.mpr fun x hx hmem => ?_
        rw [List.contains_eq_mem, decide_eq_true_eq] at hmem
        exact hrest x hx (hl _ hmem)
      have hsame : l₁.filter (fun x => (done ++ [p]).contains x.1) = l₁.filter fun x => done.contains x.1 := by
        refine filter_snoc_of_ne ?_
        rintro x hx rfl
        have := hne x hx
        simp at this
      rw [List.filter_append, List.filter_append, hsame,
        List.filter_cons_of_pos (by simp), List.filter_cons_of_neg (by simpa using hp), hnil _ hsub,
        hnil done fun q hq => hsub q (List.mem_append_left _ hq)]
      simp [hb]

theorem Late.tail (h : Late inputs (p :: todo) before later) : Late inputs todo before later :=
  fun q hq => h q (List.mem_cons_of_mem p hq)

theorem late_start (inputs todo : List Nat) (before : List (Nat × Outcome V Err)) :
    Late inputs todo before [] :=
  fun _ _ => ⟨fun _ _ hx => absurd hx List.not_mem_nil,
    fun _ _ _ heq => absurd heq.symm (List.append_ne_nil_of_right_ne_nil _ (List.cons_ne_nil _ _))⟩

/-- One more promise is settled, and no other input that waits for the loop was. -/
theorem Late.settled (h : Late inputs todo before later) (hnone : (before ++ later).lookup p = none)
    (hfirst : p ∈ inputs → ∀ q ∈ todo, q ≠ p → (before ++ later).lookup q = none) :
    Late inputs todo before (later ++ [(p, o)]) := by
  intro q hq
  have hfresh : p ∈ inputs → (before ++ later).lookup q = none := by
    intro hp
    by_cases hne : q = p
    · exact hne ▸ hnone
    · exact hfirst hp q hq hne
  refine ⟨fun hsome x hx => ?_, fun l₁ o' l₂ heq x hx => ?_⟩
  · rcases List.mem_append.mp hx with hx | hx
    · exact (h q hq).1 hsome x hx
    · rw [List.mem_singleton.mp hx]
      intro hp
      have := hfresh hp
      rw [List.lookup_append, Option.or_eq_none_iff] at this
      rw [this.1] at hsome
      cases hsome
  · rcases List.eq_nil_or_concat l₂ with rfl | ⟨l₂, y, rfl⟩
    · cases hx
    · rw [List.concat_eq_append, ← List.cons_append, ← List.append_assoc] at heq
      obtain ⟨hl, hy⟩ := List.append_inj' heq rfl
      obtain rfl := (List.cons.inj hy).1
      subst hl
      rw [List.concat_eq_append] at hx
      rcases List.mem_append.mp hx with hx | hx
      · exact (h q hq).2 l₁ o' l₂ rfl x hx
      · rw [List.mem_singleton.mp hx]
        intro hp
        have := hfresh hp
        rw [List.lookup_eq_none_iff] at this
        have := this (q, o') (by simp)
        simp at this

theorem mem_arrivals {x : Nat × Outcome V Err} (hx : x ∈ arrivals before (before ++ later) inputs) :
    x.1 ∈ inputs ∧ x ∈ before ++ later := by
  rw [arrivals_append, List.mem_append, List.mem_filterMap, List.mem_filter, List.contains_eq_mem,
    decide_eq_true_eq] at hx
  rcases hx with ⟨p, hp, hx⟩ | ⟨hx, hp⟩
  · obtain ⟨o, ho, rfl⟩ := Option.map_eq_some_iff.mp hx
    obtain ⟨l₁, l₂, rfl, -⟩ := List.lookup_eq_some_iff.mp ho
    exact ⟨hp, by simp⟩
  · exact ⟨hp, List.mem_append_right _ hx⟩

/-- No input arrives twice. -/
theorem nodup_arrivals (hnodup : inputs.Nodup) (honce : ((before ++ later).map Prod.fst).Nodup) :
    ((arrivals before (before ++ later) inputs).map Prod.fst).Nodup := by
  rw [List.map_append, List.nodup_append] at honce
  obtain ⟨-, hlater, hdisjoint⟩ := honce
  rw [arrivals_append, List.map_append, List.nodup_append]
  refine ⟨?_, ?_, ?_⟩
  · have hmap : (inputs.filterMap fun p => (before.lookup p).map fun o => (p, o)).map Prod.fst
        = inputs.filter fun p => (before.lookup p).isSome := by
      rw [List.map_filterMap, ← List.filterMap_eq_filter]
      refine List.filterMap_congr fun p _ => ?_
      cases h : before.lookup p <;> simp [Option.guard, h]
    rw [hmap]
    exact hnodup.filter _
  · exact hlater.sublist (List.filter_sublist.map Prod.fst)
  · intro p hp q hq
    obtain ⟨x, hx, rfl⟩ := List.mem_map.mp hp
    obtain ⟨y, hy, rfl⟩ := List.mem_map.mp hq
    obtain ⟨r, -, hr⟩ := List.mem_filterMap.mp hx
    obtain ⟨o, ho, rfl⟩ := Option.map_eq_some_iff.mp hr
    obtain ⟨l₁, l₂, rfl, -⟩ := List.lookup_eq_some_iff.mp ho
    refine hdisjoint r (by simp) y.1 (List.mem_map.mpr ⟨y, (List.mem_filter.mp hy).1, rfl⟩)

end Order

end Nodeoze.Event.Promises
