import Mathlib.Tactic.Common

/-!
# Calls that fail partway

A call in `EStateM` that fails keeps what it has done until then.  `onPart` makes it a call on a
larger state, with errors of its own, and `Carries` says of a call on the larger state that it does
there what another one does on the part: it fails if that one does, and with its error.
-/

namespace Partway

universe u

variable {ε ε' σ τ α β : Type u}

/-- The state in which a call ends, either way. -/
def left : EStateM.Result ε σ α → σ
  | .ok _ s => s
  | .error _ s => s

def error? : EStateM.Result ε σ α → Option ε
  | .ok _ _ => none
  | .error e _ => some e

/-- From this state, the call does not fail. -/
def Returns (m : EStateM ε σ α) (s : σ) : Prop := error? (m.run s) = none

/-- A call on a part of the state. -/
def onPart (get : σ → τ) (set : τ → σ → σ) (wrap : ε → ε') (m : EStateM ε τ α) : EStateM ε' σ α :=
  fun s => match m.run (get s) with
    | .ok a t => .ok a (set t s)
    | .error e t => .error (wrap e) (set t s)

/-- What is done to the state if the call fails. -/
def onError (m : EStateM ε σ α) (f : σ → σ) : EStateM ε σ α :=
  fun s => match m.run s with
    | .ok a s => .ok a s
    | .error e s => .error e (f s)

theorem run_get_bind (f : σ → EStateM ε σ α) (s : σ) :
    ((get : EStateM ε σ σ) >>= f).run s = (f s).run s := rfl

theorem run_set_bind (t : σ) (f : PUnit → EStateM ε σ α) (s : σ) :
    ((set t : EStateM ε σ PUnit) >>= f).run s = (f ⟨⟩).run t := rfl

theorem run_bind_ok {m : EStateM ε σ α} {f : α → EStateM ε σ β} {s t : σ} {a : α}
    (h : m.run s = .ok a t) : (m >>= f).run s = (f a).run t := by
  rw [EStateM.run_bind, h]

/-- A call given as a function of the state, which fails without having done anything. -/
def ofExcept (f : σ → Except ε σ) : EStateM ε σ PUnit :=
  fun s => match f s with
    | .ok t => .ok ⟨⟩ t
    | .error e => .error e s

theorem run_ofExcept {f : σ → Except ε σ} {s t : σ} (h : f s = .ok t) :
    (ofExcept f).run s = .ok ⟨⟩ t := by
  show (match f s with
    | .ok t => EStateM.Result.ok PUnit.unit t
    | .error e => .error e s) = _
  rw [h]

theorem run_onPart (get : σ → τ) (set : τ → σ → σ) (wrap : ε → ε') (m : EStateM ε τ α) (s : σ) :
    (onPart get set wrap m).run s = match m.run (get s) with
      | .ok a t => .ok a (set t s)
      | .error e t => .error (wrap e) (set t s) := rfl

theorem run_onError (m : EStateM ε σ α) (f : σ → σ) (s : σ) :
    (onError m f).run s = match m.run s with
      | .ok a t => .ok a t
      | .error e t => .error e (f t) := rfl

theorem error?_onError (m : EStateM ε σ α) (f : σ → σ) (s : σ) :
    error? ((onError m f).run s) = error? (m.run s) := by
  rw [run_onError]
  rcases m.run s with ⟨a, t⟩ | ⟨e, t⟩ <;> rfl

/-- What the function does to the state does not matter to `g`. -/
theorem left_onError (m : EStateM ε σ α) {f : σ → σ} {g : σ → β} (hf : ∀ s, g (f s) = g s) (s : σ) :
    g (left ((onError m f).run s)) = g (left (m.run s)) := by
  rw [run_onError]
  rcases m.run s with ⟨a, t⟩ | ⟨e, t⟩
  · rfl
  · exact hf t

/-- The end of a call on the state carries over from that of a call on the part: `R` holds of the state
if they return, and `E` if they fail. -/
inductive Carries (get : σ → τ) (wrap : ε → ε') (R : σ → Prop) (E : σ → Prop) :
    EStateM.Result ε' σ α → EStateM.Result ε τ α → Prop
  | ok {a : α} {s : σ} : R s → Carries get wrap R E (.ok a s) (.ok a (get s))
  | error {e : ε} {s : σ} : E s → Carries get wrap R E (.error (wrap e) s) (.error e (get s))

namespace Carries

variable {get : σ → τ} {wrap : ε → ε'} {R R' E : σ → Prop}

theorem bind {m : EStateM ε' σ α} {n : EStateM ε τ α} {f : α → EStateM ε' σ β} {g : α → EStateM ε τ β}
    {s : σ} {t : τ} (h : Carries get wrap R E (m.run s) (n.run t))
    (hf : ∀ a s', R s' → Carries get wrap R' E ((f a).run s') ((g a).run (get s'))) :
    Carries get wrap R' E ((m >>= f).run s) ((n >>= g).run t) := by
  rw [EStateM.run_bind, EStateM.run_bind]
  generalize m.run s = r at h
  generalize n.run t = r' at h
  cases h with
  | @ok a s' hR => exact hf a s' hR
  | error hE => exact .error hE

theorem onPart {set : τ → σ → σ} (hget : ∀ t s, get (set t s) = t) {m : EStateM ε τ α} {s : σ}
    (hR : ∀ t, R (set t s)) (hE : ∀ t, E (set t s)) :
    Carries get wrap R E ((onPart get set wrap m).run s) (m.run (get s)) := by
  rw [run_onPart]
  rcases m.run (get s) with ⟨a, t⟩ | ⟨e, t⟩
  · have hok : Carries get wrap R E (.ok a (set t s)) (.ok a (get (set t s))) := .ok (hR t)
    rwa [hget] at hok
  · have herror : Carries get wrap R E (.error (wrap e) (set t s) : EStateM.Result ε' σ α)
        (.error e (get (set t s))) := .error (hE t)
    rwa [hget] at herror

theorem imp {r : EStateM.Result ε' σ α} {r' : EStateM.Result ε τ α} (h : Carries get wrap R E r r')
    {E' : σ → Prop} (hR : ∀ s, R s → R' s) (hE : ∀ s, E s → E' s) : Carries get wrap R' E' r r' := by
  cases h with
  | ok h => exact .ok (hR _ h)
  | error h => exact .error (hE _ h)

theorem returns {r : EStateM.Result ε' σ α} {r' : EStateM.Result ε τ α} (h : Carries get wrap R E r r') :
    error? r = none ↔ error? r' = none := by
  cases h with
  | ok hR => exact ⟨fun _ => rfl, fun _ => rfl⟩
  | error hE => constructor <;> exact nofun

theorem left {r : EStateM.Result ε' σ α} {r' : EStateM.Result ε τ α} (h : Carries get wrap E E r r') :
    E (left r) := by
  cases h with
  | ok hE => exact hE
  | error hE => exact hE

end Carries

/-- The state in which a call ends satisfies `Q` if the call returns, and `E` if it fails. -/
inductive Leaves (E : σ → Prop) : EStateM.Result ε σ α → (σ → Prop) → Prop
  | ok {a : α} {s : σ} {Q : σ → Prop} : Q s → Leaves E (.ok a s) Q
  | error {e : ε} {s : σ} {Q : σ → Prop} : E s → Leaves E (.error e s) Q

namespace Leaves

variable {E E' Q Q' : σ → Prop} {r : EStateM.Result ε σ α}

theorem bind {m : EStateM ε σ α} {f : α → EStateM ε σ β} {s : σ} (h : Leaves E (m.run s) Q)
    (hf : ∀ a s', Q s' → Leaves E ((f a).run s') Q') : Leaves E ((m >>= f).run s) Q' := by
  rw [EStateM.run_bind]
  generalize m.run s = r at h
  cases h with
  | @ok a s' _ hQ => exact hf a s' hQ
  | error hE => exact .error hE

theorem imp (h : Leaves E r Q) (hE : ∀ s, E s → E' s) (hQ : ∀ s, Q s → Q' s) : Leaves E' r Q' := by
  cases h with
  | ok h => exact .ok (hQ _ h)
  | error h => exact .error (hE _ h)

theorem left (h : Leaves Q r Q) : Q (left r) := by
  cases h with
  | ok h => exact h
  | error h => exact h

theorem left_of_returns (h : Leaves E r Q) (hr : error? r = none) : Q (Partway.left r) := by
  cases h with
  | ok h => exact h
  | error h => cases hr

end Leaves

end Partway
