import Mathlib.Tactic.Common

/-!
# Two runs in lock step

A `Prog` is a program with a state that an exception leaves as it is when it is thrown, over steps
whose behaviour may be undefined.  `Alike R S p q` says that `p` and `q`, started in states related
by `R`, both end, in the same way, and in states related by `S`.  It composes along `bind`, so a
relation between two runs of one program is established from its primitives.
-/

namespace TwoRuns

/-- Programs with state `σ`, exceptions `ε` and undefined behaviour `φ`. -/
abbrev Prog (φ ε σ α : Type) : Type := ExceptT ε (StateT σ (Except φ)) α

variable {φ ε σ α β : Type}

/-- Run a program. -/
def exec (p : Prog φ ε σ α) (s : σ) : Except φ (Except ε α × σ) := p.run.run s

section Exec

variable {p : Prog φ ε σ α} {f : α → Prog φ ε σ β} {s t : σ} {a : α}

theorem exec_bind_ok (h : exec p s = .ok (.ok a, t)) : exec (p >>= f) s = exec (f a) t := by
  show (exec p s >>= _) = _
  rw [h]
  rfl

theorem exec_bind_error {e : ε} (h : exec p s = .ok (.error e, t)) :
    exec (p >>= f) s = .ok (.error e, t) := by
  show (exec p s >>= _) = _
  rw [h]
  rfl

theorem exec_get_bind (f : σ → Prog φ ε σ β) (s : σ) : exec (get >>= f) s = exec (f s) s := rfl

theorem exec_lift {x : Except φ α} (h : x = .ok a) (s : σ) :
    exec (liftM x : Prog φ ε σ α) s = .ok (.ok a, s) := by
  rw [h]
  rfl

end Exec

/-- From states related by `R`, the two programs end in the same way, in states related by `S`. -/
def Alike (R S : σ → σ → Prop) (p q : Prog φ ε σ α) : Prop :=
  ∀ s s', R s s' → ∃ r t t', exec p s = .ok (r, t) ∧ exec q s' = .ok (r, t') ∧ S t t'

namespace Alike

variable {R S T : σ → σ → Prop} {p q : Prog φ ε σ α} {f g : α → Prog φ ε σ β}

theorem pure (a : α) : Alike R R (pure a : Prog φ ε σ α) (pure a) :=
  fun s s' h => ⟨.ok a, s, s', rfl, rfl, h⟩

theorem throw (e : ε) : Alike R R (throw e : Prog φ ε σ α) (throw e) :=
  fun s s' h => ⟨.error e, s, s', rfl, rfl, h⟩

theorem imp (h : Alike R S p q) (hST : ∀ s s', S s s' → T s s') : Alike R T p q := by
  intro s s' hs
  obtain ⟨r, t, t', hp, hq, ht⟩ := h s s' hs
  exact ⟨r, t, t', hp, hq, hST t t' ht⟩

/-- An exception of the first step is the end, so what it leaves must do as the end of both. -/
theorem bind (hp : Alike R S p q) (hf : ∀ a, Alike S T (f a) (g a)) (hST : ∀ s s', S s s' → T s s') :
    Alike R T (p >>= f) (q >>= g) := by
  intro s s' hs
  obtain ⟨r, t, t', hrun, hrun', ht⟩ := hp s s' hs
  cases r with
  | error e => exact ⟨.error e, t, t', exec_bind_error hrun, exec_bind_error hrun', hST t t' ht⟩
  | ok a =>
    obtain ⟨r, u, u', hnext, hnext', hu⟩ := hf a t t' ht
    exact ⟨r, u, u', (exec_bind_ok hrun).trans hnext, (exec_bind_ok hrun').trans hnext', hu⟩

theorem modify {f g : σ → σ} (h : ∀ s s', R s s' → S (f s) (g s')) :
    Alike R S (modify f : Prog φ ε σ Unit) (modify g) :=
  fun s s' hs => ⟨.ok (), f s, g s', rfl, rfl, h s s' hs⟩

end Alike

end TwoRuns
