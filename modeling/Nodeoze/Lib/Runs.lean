import Mathlib.Tactic.Common

/-!
# Runs of a step function

A system is a step function that may refuse an act.  A run is a list of acts that are not refused.
What every step keeps, under a condition on the state before it and on the act, every run keeps
whose steps meet the condition.
-/

namespace Runs

variable {S A : Type} (step : S → A → Option S)

def run (s : S) : List A → Option S
  | [] => some s
  | a :: as => (step s a).bind fun s' => run s' as

/-- Every step of a run meets a condition. -/
def Meets (cond : S → A → Prop) (s : S) : List A → Prop
  | [] => True
  | a :: as => cond s a ∧ ∀ s', step s a = some s' → Meets cond s' as

variable {step} {s t : S} {as : List A} {I : S → Prop}

theorem meets_cons {cond : S → A → Prop} {a : A} (h : step s a = some t) (ha : cond s a)
    (has : Meets step cond t as) : Meets step cond s (a :: as) := by
  refine ⟨ha, fun s' hs' => ?_⟩
  rw [← Option.some.inj (h.symm.trans hs')]
  exact has

/-- A condition can be tried along a run. -/
instance decidableMeets {cond : S → A → Prop} [∀ s a, Decidable (cond s a)] :
    ∀ (s : S) (as : List A), Decidable (Meets step cond s as)
  | _, [] => isTrue trivial
  | s, a :: as =>
    match h : step s a with
    | none =>
      decidable_of_iff (cond s a)
        ⟨fun ha => ⟨ha, fun _ hs' => absurd (h.symm.trans hs') (by simp)⟩, And.left⟩
    | some s' =>
      have : Decidable (Meets step cond s' as) := decidableMeets s' as
      decidable_of_iff (cond s a ∧ Meets step cond s' as)
        ⟨fun hs => meets_cons h hs.1 hs.2, fun hs => ⟨hs.1, hs.2 s' h⟩⟩

theorem meets_true (as : List A) (s : S) : Meets step (fun _ _ => True) s as := by
  induction as generalizing s with
  | nil => trivial
  | cons a as ih => exact ⟨trivial, fun s' _ => ih s'⟩

theorem meets_of_forall {cond : A → Prop} (h : ∀ a ∈ as, cond a) (s : S) :
    Meets step (fun _ a => cond a) s as := by
  induction as generalizing s with
  | nil => trivial
  | cons a as ih =>
    rw [List.forall_mem_cons] at h
    exact ⟨h.1, fun s' _ => ih h.2 s'⟩

theorem run_cons {a : A} (h : run step s (a :: as) = some t) :
    ∃ s', step s a = some s' ∧ run step s' as = some t := Option.bind_eq_some_iff.mp h

@[simp] theorem run_singleton (a : A) (s : S) : run step s [a] = step s a := Option.bind_fun_some _

theorem run_append (as bs : List A) (s : S) :
    run step s (as ++ bs) = (run step s as).bind fun s' => run step s' bs := by
  induction as generalizing s with
  | nil => rfl
  | cons a as ih =>
    simp only [List.cons_append, run, Option.bind_assoc]
    congr 1
    funext s'
    exact ih s'

theorem meets_append {cond : S → A → Prop} {bs : List A} (h : Meets step cond s (as ++ bs)) :
    Meets step cond s as ∧ ∀ t, run step s as = some t → Meets step cond t bs := by
  induction as generalizing s with
  | nil =>
    refine ⟨trivial, fun t ht => ?_⟩
    obtain rfl : s = t := Option.some.inj ht
    exact h
  | cons a as ih =>
    refine ⟨⟨h.1, fun s' hs' => (ih (h.2 s' hs')).1⟩, fun t ht => ?_⟩
    obtain ⟨s', hs', hrest⟩ := run_cons ht
    exact (ih (h.2 s' hs')).2 t hrest

/-- What the steps of a run keep, the run keeps. -/
theorem invariant_of_meets {cond : S → A → Prop}
    (hstep : ∀ s a s', I s → cond s a → step s a = some s' → I s') (hmeets : Meets step cond s as)
    (h : run step s as = some t) (hs : I s) : I t := by
  induction as generalizing s with
  | nil =>
    obtain rfl : s = t := Option.some.inj h
    exact hs
  | cons a as ih =>
    obtain ⟨s', hstep', hrest⟩ := run_cons h
    exact ih (hmeets.2 s' hstep') hrest (hstep s a s' hs hmeets.1 hstep')

/-- What every step keeps, every run keeps. -/
theorem invariant (hstep : ∀ s a s', I s → step s a = some s' → I s')
    (h : run step s as = some t) (hs : I s) : I t :=
  invariant_of_meets (fun s a s' hs _ => hstep s a s' hs) (meets_true as s) h hs

end Runs
