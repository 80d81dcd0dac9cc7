import Nodeoze.Event.Settlements

/-!
# What becomes of a function that is attached to a promise

A function that was attached is called just once and with what the promise was settled with, as far as it
takes that (`Served`), when nothing is written over it while it waits and the value was still there when
it was attached (`Spared`).  A promise has one place for each kind of function, and gives its value away
with the first call: this is where continuations and functions for errors are lost.
-/

namespace Nodeoze.Event.Promises

open Promise (Outcome)
open Runs

namespace State

variable {V Err : Type} {env : Values V Err} {s s' t : State V Err}

/-! ## Conditions on a step -/

/-- The value that the promise was resolved with is still there. -/
def Intact (s : State V Err) (p : Nat) : Prop :=
  match s.fate p with
  | some (.resolved v) => (s.cells p).val = v
  | _ => True

instance [DecidableEq V] (s : State V Err) (p : Nat) : Decidable (s.Intact p) :=
  match h : s.fate p with
  | some (.resolved v) => decidable_of_iff ((s.cells p).val = v) (by simp [Intact, h])
  | some (.rejected _) => isTrue (by simp [Intact, h])
  | none => isTrue (by simp [Intact, h])

/-- What a step settles or attaches. -/
def effect (env : Values V Err) (s : State V Err) (a : Act V Err) : Option (Effect V Err) :=
  (s.prepare env a).map Prod.snd

/-- A function is not written over while it waits, and finds the value. -/
def Spares (s : State V Err) (k : Callback) : Effect V Err → Prop
  | .attach p a _ _ =>
    (s.fate p = none → (s.cells p).slot k.onReject ≠ some k) ∧ (k = a → s.Intact p)
  | .catch_ p _ => s.fate p = none → (s.cells p).reject ≠ some k
  | .idle | .settle _ _ => True

def Spared (env : Values V Err) (k : Callback) (s : State V Err) (a : Act V Err) : Prop :=
  ∀ e ∈ s.effect env a, s.Spares k e

/-- What is to become of a function that was attached. -/
def Served (s : State V Err) (p : Nat) (k : Callback) : Prop :=
  match s.fate p with
  | none => (s.cells p).slot k.onReject = some k ∧ s.told k = []
  | some o => s.told k = if o.isRejected = k.onReject then [o] else []

theorem Served.pending {p : Nat} {k : Callback} (h : s.Served p k) (hnone : s.fate p = none) :
    (s.cells p).slot k.onReject = some k ∧ s.told k = [] := by
  unfold Served at h
  rwa [hnone] at h

theorem Served.settled {p : Nat} {k : Callback} {o : Outcome V Err} (h : s.Served p k)
    (hfate : s.fate p = some o) : s.told k = if o.isRejected = k.onReject then [o] else [] := by
  unfold Served at h
  rwa [hfate] at h

theorem served_pending {p : Nat} {k : Callback} (hnone : s.fate p = none)
    (hslot : (s.cells p).slot k.onReject = some k) (htold : s.told k = []) : s.Served p k := by
  unfold Served
  rw [hnone]
  exact ⟨hslot, htold⟩

theorem served_settled {p : Nat} {k : Callback} {o : Outcome V Err} (hfate : s.fate p = some o)
    (htold : s.told k = if o.isRejected = k.onReject then [o] else []) : s.Served p k := by
  unfold Served
  rwa [hfate]

/-- The cell and what was called are as before. -/
theorem Served.same {p : Nat} {k : Callback} (h : s.Served p k) (hfate : s'.fate p = s.fate p)
    (htold : s'.told k = s.told k)
    (hslot : s.fate p = none → (s'.cells p).slot k.onReject = (s.cells p).slot k.onReject) :
    s'.Served p k := by
  cases hs : s.fate p with
  | none =>
    obtain ⟨hk, hnil⟩ := h.pending hs
    exact served_pending (hfate.trans hs) ((hslot hs).trans hk) (htold.trans hnil)
  | some o => exact served_settled (hfate.trans hs) (htold.trans (h.settled hs))

theorem Served.quiet {p : Nat} {k : Callback} (h : s.Served p k) (hs : s.Sound env)
    (hp : p < s.next) (hquiet : Quiet env s s') : s'.Served p k := by
  refine h.same (hquiet.fate p) (hquiet.told k) fun hnone => ?_
  rcases (hquiet.like hp).slot k.onReject with heq | ⟨hfin, -⟩
  · exact heq
  · rw [hs.isFinished, hnone] at hfin
    cases hfin

/-- Nothing else was called. -/
theorem told_of_ne {k : Callback} {more : List (Callback × Outcome V Err)} (h : s'.calls = s.calls ++ more)
    (hne : ∀ call ∈ more, call.1 ≠ k) : s'.told k = s.told k := by
  rw [told_of_calls h, List.filter_eq_nil_iff.mpr fun call hcall => ?_]
  · simp
  · simpa using hne call hcall

/-- A settlement calls what waits for it. -/
theorem Served.settles {p q : Nat} {k : Callback} {o : Outcome V Err} (h : s.Served p k)
    (hs : s.Sound env) (hmem : (p, k) ∈ s.log) (hnone : s.fate q = none)
    (hset : Settles env s q o t) : t.Served p k := by
  by_cases hp : p = q
  · subst hp
    obtain ⟨hslot, hnil⟩ := h.pending hnone
    refine served_settled ((hset.fate hnone p).trans (if_pos rfl)) ?_
    by_cases hside : o.isRejected = k.onReject
    · rw [if_pos hside]
      rw [← hside] at hslot
      rw [told_of_calls hset.calls, hnil, hslot]
      simp
    · rw [if_neg hside, ← hnil]
      refine told_of_ne hset.calls fun call hcall heq => hside ?_
      obtain ⟨k', hk', rfl⟩ := List.mem_map.mp hcall
      obtain rfl : k' = k := heq
      exact (hs.slot p _ k' (Option.mem_toList.mp hk')).2.symm
  · refine h.same ((hset.fate hnone p).trans (if_neg hp)) ?_ fun _ => ?_
    · refine told_of_ne hset.calls fun call hcall heq => hp ?_
      obtain ⟨k', hk', rfl⟩ := List.mem_map.mp hcall
      obtain rfl : k' = k := heq
      exact hs.home p q k' hmem (hs.slot q _ k' (Option.mem_toList.mp hk')).1
    · rw [hset.cells, Function.update_of_ne hp]

/-- What is attached elsewhere, or to a promise that is settled, changes nothing. -/
theorem Served.attaches {p q : Nat} {a k : Callback} {b : Option Callback} (h : s.Served p k)
    (hne : k ≠ a ∧ k ∉ b) (hfree : s.fate q = none → (s.cells q).slot k.onReject ≠ some k)
    (hatt : Attaches s q a b t) : t.Served p k := by
  refine h.same (hatt.fate p) ?_ fun hnone => ?_
  · refine told_of_ne hatt.calls fun call hcall heq => ?_
    rcases mem_direct (o := call.2) hcall with hk | hk
    · exact hne.1 (heq ▸ hk)
    · exact hne.2 (heq ▸ hk)
  · obtain ⟨v, hcells, -⟩ := hatt.cells
    by_cases hp : p = q
    · subst hp
      exact absurd (h.pending hnone).1 (hfree hnone)
    · rw [hcells, Function.update_of_ne hp]

theorem Served.catches {p q : Nat} {k k' : Callback} (h : s.Served p k) (hs : s.Sound env)
    (hne : k ≠ k') (hfree : s.fate q = none → (s.cells q).reject ≠ some k)
    (hcatch : Catches s q k' t) : t.Served p k := by
  refine h.same (hcatch.fate p) ?_ fun hnone => ?_
  · refine told_of_ne hcatch.calls fun call hcall heq => ?_
    split at hcall
    · rw [List.mem_singleton.mp hcall] at heq
      exact hne heq.symm
    · cases hcall
  · rcases hcatch.cell p with heq | ⟨rfl, -, heq⟩
    · rw [heq]
    · obtain ⟨hslot, -⟩ := h.pending hnone
      have hside := (hs.slot p _ k hslot).2
      rw [heq]
      cases hk : k.onReject with
      | false => rfl
      | true =>
        rw [hk] at hslot
        exact absurd hslot (hfree hnone)

/-- What has just been attached for the value. -/
theorem served_new {p : Nat} {a : Callback} {b : Option Callback} (hs : s.Sound env)
    (ha : a.onReject = false) (hb : ∀ k ∈ b, k.onReject = true) (hnil : s.told a = [])
    (hintact : s.Intact p) (hatt : Attaches s p a b t) : t.Served p a := by
  have hagrees := hs.agrees p
  have hne : ∀ k ∈ b, k ≠ a := by
    rintro k hk rfl
    exact Bool.noConfusion (ha.symm.trans (hb k hk))
  obtain ⟨v, hcells, -⟩ := hatt.cells
  have hfate := hatt.fate p
  cases h : s.fate p with
  | none =>
    rw [h] at hagrees
    refine served_pending (hfate.trans h) ?_ ?_
    · rw [hcells, Function.update_self, ha]
      rfl
    · rw [told_of_calls hatt.calls, hnil]
      simp [direct, hagrees.1, hagrees.2]
  | some o =>
    refine served_settled (hfate.trans h) ?_
    rw [told_of_calls hatt.calls, hnil]
    rw [h] at hagrees
    cases o with
    | resolved w =>
      have hval : (s.cells p).val = w := by
        simpa only [Intact, h] using hintact
      simp [direct, hagrees.1, hagrees.2.1, hval, Outcome.isRejected, ha]
    | rejected e =>
      have hnone : ∀ x ∈ b, ¬x = a := hne
      cases b with
      | none => simp [direct, hagrees.2.1, Outcome.isRejected, ha]
      | some b => simp [direct, hagrees.2.1, Outcome.isRejected, ha, hne b rfl]

/-- What has just been attached for the error. -/
theorem served_newError {p : Nat} {a b : Callback} (hs : s.Sound env)
    (ha : a.onReject = false) (hb : b.onReject = true) (hnil : s.told b = [])
    (hatt : Attaches s p a (some b) t) : t.Served p b := by
  have hagrees := hs.agrees p
  have hne : a ≠ b := by
    rintro rfl
    exact Bool.noConfusion (ha.symm.trans hb)
  obtain ⟨v, hcells, -⟩ := hatt.cells
  have hfate := hatt.fate p
  cases h : s.fate p with
  | none =>
    rw [h] at hagrees
    refine served_pending (hfate.trans h) ?_ ?_
    · rw [hcells, Function.update_self, hb]
      rfl
    · rw [told_of_calls hatt.calls, hnil]
      simp [direct, hagrees.1, hagrees.2]
  | some o =>
    refine served_settled (hfate.trans h) ?_
    rw [told_of_calls hatt.calls, hnil]
    rw [h] at hagrees
    cases o with
    | resolved w => simp [direct, hagrees.1, hagrees.2.1, Outcome.isRejected, hb, hne]
    | rejected e => simp [direct, hagrees.2.1, hagrees.2.2, Outcome.isRejected, hb]

theorem served_newCatcher {p : Nat} {k : Callback} (hs : s.Sound env) (hk : k.onReject = true)
    (hnil : s.told k = []) (hcatch : Catches s p k t) : t.Served p k := by
  have hagrees := hs.agrees p
  have hfate := hcatch.fate p
  cases h : s.fate p with
  | none =>
    rw [h] at hagrees
    have hfin : (s.cells p).isFinished = false := (hs.isFinished p).trans (by rw [h]; rfl)
    refine served_pending (hfate.trans h) ?_ ?_
    · rw [hcatch.cells, if_neg (by simp [hfin]), Function.update_self, hk]
      rfl
    · rw [told_of_calls hcatch.calls, hnil]
      simp [hagrees.2]
  | some o =>
    refine served_settled (hfate.trans h) ?_
    rw [told_of_calls hcatch.calls, hnil]
    rw [h] at hagrees
    cases o with
    | resolved w => simp [hagrees.2.1, Outcome.isRejected, hk]
    | rejected e => simp [hagrees.2.1, hagrees.2.2, Outcome.isRejected, hk]

/-! ## Every step -/

/-- Where something is attached, the preparation has changed nothing. -/
theorem Quiet.slot {p : Nat} (hquiet : Quiet env s s') (h : s.Sound env) (hp : p < s.next)
    (hnone : s.fate p = none) (side : Bool) : (s'.cells p).slot side = (s.cells p).slot side := by
  rcases (hquiet.like hp).slot side with heq | ⟨hfin, -⟩
  · exact heq
  · rw [h.isFinished, hnone] at hfin
    cases hfin

theorem Quiet.intact {p : Nat} (hquiet : Quiet env s s') (hp : p < s.next) (h : s.Intact p) :
    s'.Intact p := by
  unfold Intact at h ⊢
  rw [hquiet.fate, (hquiet.like hp).val]
  exact h

/-- What a step keeps of a function that it spares. -/
theorem served_step {k : Callback} {a : Act V Err} (h : s.Sound env)
    (hserved : ∀ p, (p, k) ∈ s.log → s.Served p k) (hspared : Spared env k s a)
    (hstep : s.step env a = some t) (p : Nat) (hmem : (p, k) ∈ t.log) : t.Served p k := by
  obtain ⟨s', e, hprep, hp, hperf⟩ := step_cases h hstep
  have hs' := h.quiet hp.quiet hp.framed
  have hspares : s.Spares k e := hspared e (Option.mem_def.mpr (by rw [effect, hprep]; rfl))
  have hserved' : ∀ p, (p, k) ∈ s'.log → s'.Served p k := by
    intro p hmem
    rw [hp.quiet.log] at hmem
    exact (hserved p hmem).quiet h (h.log_lt p k hmem).1 hp.quiet
  cases hperf with
  | idle => exact hserved' p hmem
  | late q o hsome => exact hserved' p hmem
  | settles hnone hset =>
    rw [hset.log] at hmem
    exact (hserved' p hmem).settles hs' hmem hnone hset
  | @attaches q b c leaves _ hatt =>
    obtain ⟨hq, hb, hc⟩ := hp.admissible
    obtain ⟨hfree, hintact⟩ := hspares
    have hnew : ∀ k', k'.number = s.next → (∀ r, (r, k') ∉ s'.log) ∧ s'.told k' = [] := fun k' hk' =>
      ⟨fun r => h.unlogged hp.quiet r k' hk', (hp.quiet.told k').trans (h.fresh (Nat.le_of_eq hk'.symm)).2⟩
    rcases hatt.mem_log.mp hmem with hold | ⟨rfl, rfl | hk⟩
    · refine (hserved' p hold).attaches ⟨?_, fun hk => ?_⟩ (fun hnone => ?_) hatt
      · rintro rfl
        exact (hnew k hb.number).1 p hold
      · exact (hnew k (hc k hk).number).1 p hold
      · rw [hp.quiet.fate] at hnone
        rw [hp.quiet.slot h hq hnone]
        exact hfree hnone
    · exact served_new hs' hb.side (fun k' hk' => (hc k' hk').side) (hnew k hb.number).2
        (hp.quiet.intact hq (hintact rfl)) hatt
    · obtain rfl : c = some k := hk
      exact served_newError hs' hb.side (hc k rfl).side (hnew k (hc k rfl).number).2 hatt
  | @catches q k' _ hcatch =>
    obtain ⟨hq, hk'⟩ := hp.admissible
    rcases hcatch.mem_log.mp hmem with hold | ⟨rfl, rfl⟩
    · refine (hserved' p hold).catches hs' ?_ (fun hnone => ?_) hcatch
      · rintro rfl
        exact h.unlogged hp.quiet p k hk'.number hold
      · rw [hp.quiet.fate] at hnone
        rw [show (s'.cells q).reject = (s.cells q).reject from hp.quiet.slot h hq hnone true]
        exact hspares hnone
    · refine served_newCatcher hs' hk'.side ?_ hcatch
      rw [hp.quiet.told]
      exact (h.fresh (Nat.le_of_eq hk'.number.symm)).2

/-- None of these functions is written over while it waits, and each finds the value that it is for. -/
def SparesThose (s : State V Err) (those : Callback → Bool) : Effect V Err → Prop
  | .attach p a _ _ =>
    (s.fate p = none → ∀ side, ∀ k ∈ (s.cells p).slot side, those k = false) ∧ (those a = true → s.Intact p)
  | .catch_ p _ => s.fate p = none → ∀ k ∈ (s.cells p).reject, those k = false
  | .idle | .settle _ _ => True

instance [DecidableEq V] (s : State V Err) (those : Callback → Bool) (e : Effect V Err) :
    Decidable (s.SparesThose those e) :=
  match e with
  | .attach p a _ _ => inferInstanceAs (Decidable
      ((s.fate p = none → ∀ side, ∀ k ∈ (s.cells p).slot side, those k = false) ∧
        (those a = true → s.Intact p)))
  | .catch_ p _ => inferInstanceAs (Decidable
      (s.fate p = none → ∀ k ∈ (s.cells p).reject, those k = false))
  | .idle | .settle _ _ => isTrue trivial

theorem spared_of_those {those : Callback → Bool} {k : Callback} {a : Act V Err}
    (hspares : ∀ e ∈ s.effect env a, s.SparesThose those e) (hk : those k = true) : Spared env k s a := by
  intro e he
  have hthose := hspares e he
  cases e with
  | idle => trivial
  | settle p o => trivial
  | attach p b c leaves =>
    obtain ⟨hfree, hintact⟩ := hthose
    refine ⟨fun hnone hslot => ?_, fun heq => hintact (heq ▸ hk)⟩
    rw [hfree hnone _ k hslot] at hk
    cases hk
  | catch_ p b =>
    intro hnone hslot
    rw [hthose hnone k hslot] at hk
    cases hk

/-- Those of these functions that were attached are served. -/
def ServedThose (s : State V Err) (those : Callback → Bool) : Prop :=
  ∀ k, those k = true → ∀ p, (p, k) ∈ s.log → s.Served p k

theorem ServedThose.step {those : Callback → Bool} {a : Act V Err} (hserved : s.ServedThose those)
    (h : s.Sound env) (hspares : ∀ e ∈ s.effect env a, s.SparesThose those e)
    (hstep : s.step env a = some t) : t.ServedThose those :=
  fun k hk => served_step h (hserved k hk) (spared_of_those hspares hk) hstep

/-- The program does not settle these promises itself. -/
def LeavesSettling (s : State V Err) (promises : List Nat) : Act V Err → Prop
  | .settle p _ => p ∈ promises → (s.fate p).isSome = true
  | _ => True

instance (s : State V Err) (promises : List Nat) (a : Act V Err) : Decidable (s.LeavesSettling promises a) :=
  match a with
  | .settle p _ => inferInstanceAs (Decidable (p ∈ promises → (s.fate p).isSome = true))
  | .create _ | .then_ _ _ _ _ | .catcher _ | .finally_ _ | .gather _ _ _ | .ret _ _ | .go _ =>
    isTrue trivial

theorem Performed.mem_log {e : Effect V Err} (h : Performed env s e t) (q : Nat) (k : Callback)
    (hmem : (q, k) ∈ s.log) : (q, k) ∈ t.log := by
  cases h with
  | idle => exact hmem
  | late => exact hmem
  | settles hnone hset => exact hset.log ▸ hmem
  | attaches hatt => exact hatt.mem_log.mpr (.inl hmem)
  | catches hcatch => exact hcatch.mem_log.mpr (.inl hmem)

theorem mem_log_step {a : Act V Err} (h : s.Sound env) (hstep : s.step env a = some t) (q : Nat)
    (k : Callback) (hmem : (q, k) ∈ s.log) : (q, k) ∈ t.log := by
  obtain ⟨s', e, -, hp, hperf⟩ := step_cases h hstep
  exact hperf.mem_log q k (hp.quiet.log ▸ hmem)

/-! ## Continuations -/

/-- A function waits for the value, or for the error, and is called when the promise is settled. -/
def Waits (s : State V Err) (p : Nat) (side : Bool) : Prop :=
  s.fate p = none ∧ (s.cells p).slot side ≠ none

instance (s : State V Err) (p : Nat) (side : Bool) : Decidable (s.Waits p side) :=
  match h : s.fate p with
  | none => decidable_of_iff ((s.cells p).slot side ≠ none) (by simp [Waits, h])
  | some _ => isFalse (by simp [Waits, h])

/-- Nothing is attached to a promise while a continuation waits in it or when its value has been given
away. -/
def KeepsContinuations (s : State V Err) (p : Nat) : Effect V Err → Prop
  | .attach q _ _ _ => q = p → ¬s.Waits p false ∧ s.Intact p
  | .idle | .settle _ _ | .catch_ _ _ => True

/-- Every continuation of a promise that is resolved is called just once, with its value. -/
def ContinuationsServed (s : State V Err) (p : Nat) : Prop :=
  ∀ v, s.fate p = some (.resolved v) → ∀ k, (p, k) ∈ s.log → k.onReject = false → s.told k = [.resolved v]

/-- The function that is attached to a promise is not written over where no continuation is. -/
theorem spared_of_keeps {p : Nat} {k : Callback} {a : Act V Err} (h : s.Sound env)
    (hkeeps : ∀ e ∈ s.effect env a, s.KeepsContinuations p e) (hk : k.onReject = false)
    (hstep : s.step env a = some t) (hmem : (p, k) ∈ t.log) : Spared env k s a := by
  have ht := h.step hstep
  obtain ⟨s', e, hprep, hp, hperf⟩ := step_cases h hstep
  have heffect : s.effect env a = some e := by
    rw [effect, hprep]
    rfl
  intro e' he'
  obtain rfl : e = e' := Option.some.inj (heffect.symm.trans he')
  have hkeep := hkeeps e he'
  cases hperf with
  | idle => trivial
  | late => trivial
  | settles => trivial
  | @attaches q b c leaves _ hatt =>
    refine ⟨fun hnone hslot => ?_, fun hb => ?_⟩
    · have hlog := mem_log_step h hstep q k (h.slot q _ k hslot).1
      obtain rfl := ht.home p q k hmem hlog
      rw [hk] at hslot
      exact (hkeep rfl).1 ⟨hnone, by simp [hslot]⟩
    · obtain rfl := ht.home p q k hmem (hatt.mem_log.mpr (.inr ⟨rfl, .inl hb⟩))
      exact (hkeep rfl).2
  | @catches q k' _ hcatch =>
    intro hnone hslot
    have := (h.slot q true k hslot).2
    rw [hk] at this
    cases this

instance (s : State V Err) (p : Nat) (e : Effect V Err) [DecidableEq V] :
    Decidable (s.KeepsContinuations p e) :=
  match e with
  | .attach q _ _ _ => inferInstanceAs (Decidable (q = p → ¬s.Waits p false ∧ s.Intact p))
  | .idle | .settle _ _ | .catch_ _ _ => isTrue trivial

/-- The values of `promise< int >`, with the digits of a number for a `deque< int >`. -/
def digits : Values Nat Nat := ⟨0, 0, fun l => l.foldl (fun n d => 10 * n + d) 1, 0, 22⟩

/-- A continuation before and two behind the settlement of a `promise< void >`. -/
def aroundVoid : List (Act Nat Nat) :=
  [.create true, .then_ 0 .nothing false 0, .settle 0 (.resolved 0), .go 0, .ret .nothing 0, .go 0,
    .then_ 0 .value false 0, .go 0, .ret (.value 5) 0, .go 0, .then_ 0 .nothing true 0, .go 0,
    .ret .nothing 0, .go 0]

/-- Two continuations that are attached before the promise is resolved. -/
def bothBefore : List (Act Nat Nat) :=
  [.create false, .then_ 0 .nothing false 0, .then_ 0 .nothing false 0, .settle 0 (.resolved 7), .go 0,
    .ret .nothing 0, .go 0]

/-- One before, and one behind. -/
def oneBehind : List (Act Nat Nat) :=
  [.create false, .then_ 0 .nothing false 0, .settle 0 (.resolved 7), .go 0, .ret .nothing 0, .go 0,
    .then_ 0 .nothing false 0, .go 0, .ret .nothing 0, .go 0]

/-- Nothing was given to `then`, and no function has returned. -/
structure Silent (s s' : State V Err) : Prop where
  offered : s'.offered = s.offered
  returned : s'.returned = s.returned

theorem silent_takeFinally (s : State V Err) (p : Nat) : Silent s (s.takeFinally p) := by
  unfold takeFinally
  split <;> exact ⟨rfl, rfl⟩

theorem silent_doFinally (s : State V Err) (p : Nat) (k : Callback) : Silent s (s.doFinally p k) := by
  unfold doFinally
  dsimp only
  split <;> exact ⟨rfl, rfl⟩

theorem silent_promiseFor (env : Values V Err) (s : State V Err) (kind : Kind) :
    Silent s (s.promiseFor env kind) := by
  cases kind <;> exact ⟨rfl, rfl⟩

theorem silent_gather (env : Values V Err) (s : State V Err) (mode : Mode) (isVoid : Bool)
    (inputs : List Nat) : Silent s (s.gather env mode isVoid inputs).1 := by
  cases inputs <;> exact ⟨rfl, rfl⟩

theorem silent_invoke (env : Values V Err) (s : State V Err) (k : Callback) (o : Outcome V Err) :
    Silent s (s.invoke env k o).1 := by
  unfold invoke
  split <;> first | exact ⟨rfl, rfl⟩ | split <;> exact ⟨rfl, rfl⟩

theorem silent_resume {leaves : V} {f : Frame V Err} {e : Effect V Err}
    (h : s.resume env leaves f = some (s', e)) : Silent s s' := by
  cases f with
  | call k o =>
    have hinvoke := silent_invoke env s k o
    rwa [Option.some.inj h] at hinvoke
  | final k =>
    cases h
    exact ⟨rfl, rfl⟩
  | running job => cases h
  | after p rejected =>
    cases h
    obtain ⟨hoffered, hreturned⟩ := silent_takeFinally
      (s.setCell p (if rejected then { s.cells p with resolve := none }
        else { s.cells p with reject := none })) p
    exact ⟨hoffered, hreturned⟩
  | direct p =>
    cases h
    split
    · exact silent_takeFinally s p
    · exact ⟨rfl, rfl⟩
  | register c index todo =>
    cases todo with
    | nil =>
      simp only [resume] at h
      split at h <;> cases h
      exact ⟨rfl, rfl⟩
    | cons p todo =>
      simp only [resume] at h
      split at h <;> cases h
      exact ⟨rfl, rfl⟩

theorem giveBack_offered {leaves : V} {job : Option (Kind × Nat)} {result : Result V} {e : Effect V Err}
    (h : s.giveBack leaves job result = some (s', e)) : s'.offered = s.offered := by
  unfold giveBack at h
  split at h
  · cases h
    rfl
  · cases h
    rfl
  · cases h
    rfl
  · split at h <;> cases h
    rfl
  · cases h

/-- Functions for errors are only given to `then`. -/
theorem prepare_offered {a : Act V Err} {e : Effect V Err} (h : s.prepare env a = some (s', e)) :
    s'.offered = s.offered ∨ ∃ p kind leaves,
      e = .attach p (.user kind s.next) (kind.rejectSlot s.next true) leaves ∧
      s'.offered = s.offered ++ [(p, kind, s.next)] := by
  cases a with
  | create isVoid =>
    simp only [prepare] at h
    split at h <;> cases h
    exact .inl rfl
  | then_ p kind hasReject leaves =>
    simp only [prepare] at h
    split at h <;> cases h
    have hsilent := silent_promiseFor env s kind
    cases hasReject with
    | false => exact .inl rfl
    | true => exact .inr ⟨p, kind, leaves, rfl, rfl⟩
  | catcher p =>
    simp only [prepare] at h
    split at h <;> cases h
    exact .inl rfl
  | finally_ p =>
    simp only [prepare] at h
    split at h <;> cases h
    exact .inl (silent_doFinally s.number p _).offered
  | settle p o =>
    simp only [prepare] at h
    split at h <;> cases h
    exact .inl rfl
  | gather mode isVoid inputs =>
    simp only [prepare] at h
    split at h
    · have hsilent := silent_gather env s mode isVoid inputs
      rw [Option.some.inj h] at hsilent
      exact .inl hsilent.offered
    · cases h
  | ret result leaves =>
    simp only [prepare] at h
    split at h
    · have hgive := giveBack_offered h
      exact .inl hgive
    · cases h
  | go leaves =>
    simp only [prepare] at h
    split at h
    · have hresume := (silent_resume h).offered
      exact .inl hresume
    · cases h

theorem Performed.offered {e : Effect V Err} (h : Performed env s e t) : t.offered = s.offered := by
  cases h with
  | idle => rfl
  | late => rfl
  | settles hnone hset => exact hset.offered
  | attaches hatt => exact hatt.offered
  | catches hcatch => exact hcatch.offered

/-- What is attached in a step has the number that is given out. -/
theorem number_of_step {a : Act V Err} (h : s.Sound env) (hstep : s.step env a = some t) (q : Nat)
    (k : Callback) (hmem : (q, k) ∈ t.log) : (q, k) ∈ s.log ∨ k.number = s.next := by
  obtain ⟨s', e, -, hp, hperf⟩ := step_cases h hstep
  have hadm := hp.admissible
  rw [← hp.quiet.log]
  cases hperf with
  | idle => exact .inl hmem
  | late => exact .inl hmem
  | settles hnone hset => exact .inl (hset.log ▸ hmem)
  | attaches hatt =>
    obtain ⟨-, ha, hb⟩ := hadm
    rcases hatt.mem_log.mp hmem with hold | ⟨-, rfl | hk⟩
    · exact .inl hold
    · exact .inr ha.number
    · exact .inr (hb k hk).number
  | catches hcatch =>
    rcases hcatch.mem_log.mp hmem with hold | ⟨-, rfl⟩
    · exact .inl hold
    · exact .inr hadm.2.number

/-- The function for errors that was given to `then` is attached if its other function returns nothing,
and forgotten if it returns something. -/
def OfferedWell (s : State V Err) : Prop :=
  ∀ p kind n, (p, kind, n) ∈ s.offered → n < s.next ∧
    (kind = .nothing → (p, .reject n) ∈ s.log) ∧ (kind ≠ .nothing → ∀ q, (q, .reject n) ∉ s.log)

theorem OfferedWell.step {a : Act V Err} (h : s.OfferedWell) (hs : s.Sound env)
    (hstep : s.step env a = some t) : t.OfferedWell := by
  have hmono := mem_log_step hs hstep
  have hnumber := number_of_step hs hstep
  obtain ⟨s', e, hprep, hp, hperf⟩ := step_cases hs hstep
  have hnext : s.next ≤ t.next := by
    refine Nat.le_trans hp.quiet.next ?_
    cases hperf with
    | idle => exact Nat.le_refl _
    | late => exact Nat.le_refl _
    | settles hnone hset => exact Nat.le_of_eq hset.next.symm
    | attaches hatt => exact Nat.le_of_eq hatt.next.symm
    | catches hcatch => exact Nat.le_of_eq hcatch.next.symm
  intro p kind n hmem
  rw [hperf.offered] at hmem
  have hold : (p, kind, n) ∈ s.offered → n < t.next ∧
      (kind = .nothing → (p, .reject n) ∈ t.log) ∧ (kind ≠ .nothing → ∀ q, (q, .reject n) ∉ t.log) := by
    intro hmem
    obtain ⟨hlt, hlog, hnot⟩ := h p kind n hmem
    refine ⟨Nat.lt_of_lt_of_le hlt hnext, fun hkind => hmono p _ (hlog hkind), fun hkind q hq => ?_⟩
    rcases hnumber q _ hq with hq | hq
    · exact hnot hkind q hq
    · exact absurd hq (Nat.ne_of_lt hlt)
  rcases prepare_offered hprep with heq | ⟨p', kind', leaves, rfl, heq⟩
  · exact hold (heq ▸ hmem)
  · rw [heq, List.mem_append, List.mem_singleton] at hmem
    rcases hmem with hmem | hmem
    · exact hold hmem
    · cases hmem
      cases hperf with
      | attaches hatt =>
        obtain ⟨-, ha, -⟩ := hp.admissible
        refine ⟨Nat.lt_of_lt_of_le ha.below.1 (Nat.le_of_eq hatt.next.symm), fun hkind => ?_,
          fun hkind q hq => ?_⟩
        · subst hkind
          exact hatt.mem_log.mpr (.inr ⟨rfl, .inr rfl⟩)
        · rcases hatt.mem_log.mp hq with hq | ⟨-, hk | hk⟩
          · exact hs.unlogged hp.quiet q _ rfl hq
          · cases hk
          · cases kind with
            | nothing => exact hkind rfl
            | value => cases hk
            | promise isVoid => cases hk

/-- Nothing for errors is written over while it waits. -/
def KeepsErrors (s : State V Err) (p : Nat) : Effect V Err → Prop
  | .attach q _ _ _ | .catch_ q _ => q = p → ¬s.Waits p true
  | .idle | .settle _ _ => True

instance (s : State V Err) (p : Nat) (e : Effect V Err) : Decidable (s.KeepsErrors p e) :=
  match e with
  | .attach q _ _ _ | .catch_ q _ => inferInstanceAs (Decidable (q = p → ¬s.Waits p true))
  | .idle | .settle _ _ => isTrue trivial

theorem spared_of_keepsErrors {p : Nat} {k : Callback} {a : Act V Err} (h : s.Sound env)
    (hkeeps : ∀ e ∈ s.effect env a, s.KeepsErrors p e) (hk : k.onReject = true)
    (hstep : s.step env a = some t) (hmem : (p, k) ∈ t.log) : Spared env k s a := by
  have ht := h.step hstep
  obtain ⟨s', e, hprep, hp, hperf⟩ := step_cases h hstep
  have heffect : s.effect env a = some e := by
    rw [effect, hprep]
    rfl
  have hfree : ∀ q, (q = p → ¬s.Waits p true) → s.fate q = none → (s.cells q).slot true ≠ some k := by
    intro q hq hnone hslot
    obtain rfl := ht.home p q k hmem (mem_log_step h hstep q k (h.slot q _ k hslot).1)
    exact hq rfl ⟨hnone, by simp [hslot]⟩
  intro e' he'
  obtain rfl : e = e' := Option.some.inj (heffect.symm.trans he')
  have hkeep := hkeeps e he'
  cases hperf with
  | idle => trivial
  | late => trivial
  | settles => trivial
  | @attaches q b c leaves _ hatt =>
    refine ⟨hk.symm ▸ hfree q hkeep, fun hb => ?_⟩
    subst hb
    exact absurd (hp.admissible.2.1.side.symm.trans hk) Bool.false_ne_true
  | @catches q k' _ hcatch => exact hfree q hkeep

/-- Functions for errors that are given before and behind the rejection, the last one with a continuation
that returns a value. -/
def aroundRejection : List (Act Nat Nat) :=
  [.create false, .then_ 0 .nothing true 0, .settle 0 (.rejected 9), .go 0, .ret .nothing 0, .go 0,
    .then_ 0 .nothing true 0, .go 0, .ret .nothing 0, .go 0, .then_ 0 .value true 0, .go 0, .go 0]

/-- A promise with one `then` is rejected. -/
def rejectedValue : List (Act Nat Nat) :=
  [.create false, .then_ 0 .value true 0, .settle 0 (.rejected 9), .go 0, .go 0]

/-- A second `then` brings no function for errors. -/
def rejectedTwice : List (Act Nat Nat) :=
  [.create false, .then_ 0 .nothing true 0, .then_ 0 .nothing false 0, .settle 0 (.rejected 9)]

end State

end Nodeoze.Event.Promises
