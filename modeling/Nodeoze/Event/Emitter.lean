import Mathlib.Algebra.Order.Ring.Int
import Mathlib.Data.List.Perm.Basic
import Mathlib.Data.List.Nodup
import Mathlib.Logic.Function.Basic
import Nodeoze.Lib.Runs

/-!
# Event emitters

`event::emitter` keeps a list of listeners for each event.  To emit an event is to take the listeners
whose handler has the types of the arguments, to drop those among them that are for once, and then to
call the handlers, one after the other.  Adding and removing listeners emits events, too.

The handlers are code of the user: between two calls whatever can be done to the emitter may be done,
to emit the same event among it.  `Frame` is an emit that has not called all its handlers.

What is registered is said by `Registry`, a list of all listeners in the order of their registration.
-/

namespace Nodeoze.Event.Emitter

open Runs

variable {K Sig H A : Type}

/-- `detail::listener_base` and the handler; `sig` are the types of its arguments. -/
structure Listener (Sig H : Type) where
  id : Int
  sig : Sig
  handler : H
  deriving DecidableEq, Repr

def Listener.isOnce (l : Listener Sig H) : Bool := decide (l.id < 0)

/-- The types of arguments, and the events that the emitter emits itself with their arguments: the
name of an event and the number of its listeners. -/
structure Setting (K Sig A : Type) where
  sigOf : A → Sig
  newListener : K
  removeListener : K
  note : K → Nat → A

/-- `m_listeners` and `m_last_listener` -/
structure Listeners (K Sig H : Type) where
  table : K → Option (List (Listener Sig H))
  last : Nat

variable [DecidableEq K] [DecidableEq Sig] (E : Setting K Sig A)

/-- The first loop of `emit`: the listeners to call, and those that stay. -/
def take (sig : Sig) : List (Listener Sig H) → List (Listener Sig H) × List (Listener Sig H)
  | [] => ([], [])
  | l :: ls =>
    let (taken, kept) := take sig ls
    if l.sig = sig then
      if l.isOnce then (l :: taken, kept) else (l :: taken, l :: kept)
    else (taken, l :: kept)

namespace Listeners

def create : Listeners K Sig H := ⟨fun _ => none, 0⟩

/-- `emit`, up to the calls. -/
def emit (e : Listeners K Sig H) (key : K) (args : A) : Listeners K Sig H × List (Listener Sig H) :=
  match e.table key with
  | some ls =>
    let (taken, kept) := take (E.sigOf args) ls
    ({ e with table := Function.update e.table key (some kept) }, taken)
  | none => (e, [])

/-- The new listener is the last one of its event. -/
def register (e : Listeners K Sig H) (key : K) (l : Listener Sig H) : Listeners K Sig H :=
  ⟨Function.update e.table key (some ((e.table key).getD [] ++ [l])), e.last + 1⟩

def nextId (e : Listeners K Sig H) (once : Bool) : Int := (e.last + 1) * if once then -1 else 1

def size (e : Listeners K Sig H) (key : K) : Nat := ((e.table key).getD []).length

def erase (e : Listeners K Sig H) (key : K) (p : Listener Sig H → Bool) : Listeners K Sig H :=
  { e with
    table := Function.update e.table key (some (((e.table key).getD []).filter fun l => !p l)) }

end Listeners

/-! ## Runs -/

/-- The registered listeners. -/
abbrev Registry (K Sig H : Type) := List (K × Listener Sig H)

namespace Registry

variable (r : Registry K Sig H)

/-- The listeners of an event. -/
def of (key : K) : List (Listener Sig H) := (r.filter fun entry => decide (entry.1 = key)).map Prod.snd

/-- The listeners of an event whose handlers take these arguments. -/
def matching (key : K) (sig : Sig) : List (Listener Sig H) :=
  (r.of key).filter fun l => decide (l.sig = sig)

/-- Without some listeners of an event. -/
def drop (key : K) (p : Listener Sig H → Bool) : Registry K Sig H :=
  r.filter fun entry => !(decide (entry.1 = key) && p entry.2)

/-- Without those for once among the `matching` ones. -/
def emitted (key : K) (sig : Sig) : Registry K Sig H :=
  r.drop key fun l => decide (l.sig = sig) && l.isOnce

end Registry

/-- An emit.  `expected` records what was registered when it started, `invoked` whom it called. -/
structure Frame (Sig H A : Type) where
  args : A
  rest : List (Listener Sig H)
  expected : List (Listener Sig H)
  invoked : List (Listener Sig H)

/-- An emitter and the emits that have not called all their handlers, the innermost first.  The
listeners that are registered, the emits that are over and the ids that were returned are recorded. -/
structure State (K Sig H A : Type) where
  listeners : Listeners K Sig H
  stack : List (Frame Sig H A)
  registered : Registry K Sig H
  finished : List (Frame Sig H A)
  ids : List Int

inductive Act (K Sig H A : Type)
  | addListener (key : K) (handler : Option (Sig × H)) (once : Bool)
  | removeListener (key : K) (id : Int)
  | removeAllListeners (key : K)
  | emit (key : K) (args : A)
  | next

namespace State

def create : State K Sig H A := ⟨.create, [], [], [], []⟩

def emit (s : State K Sig H A) (key : K) (args : A) : State K Sig H A :=
  { s with
    listeners := (s.listeners.emit E key args).1
    stack := ⟨args, (s.listeners.emit E key args).2, s.registered.matching key (E.sigOf args), []⟩ :: s.stack
    registered := s.registered.emitted key (E.sigOf args) }

/-- `add_listener`, `on` and `once`: an empty handler has the id zero.  The number of the last
listener is limited. -/
def addListener (s : State K Sig H A) (key : K) (handler : Option (Sig × H)) (once : Bool) :
    Option (State K Sig H A × Int) :=
  match handler with
  | none => some (s, 0)
  | some (sig, handler) =>
    if s.listeners.last + 1 < 2 ^ 63 then
      let id := s.listeners.nextId once
      let l : Listener Sig H := ⟨id, sig, handler⟩
      let s := { s with
        listeners := s.listeners.register key l
        registered := s.registered ++ [(key, l)]
        ids := s.ids ++ [id] }
      some (s.emit E E.newListener (E.note key (s.listeners.size key)), id)
    else none

def erase (s : State K Sig H A) (key : K) (p : Listener Sig H → Bool) : State K Sig H A :=
  if (s.listeners.table key).isSome then
    let s := { s with
      listeners := s.listeners.erase key p
      registered := s.registered.drop key p }
    s.emit E E.removeListener (E.note key (s.listeners.size key))
  else s

def removeListener (s : State K Sig H A) (key : K) (id : Int) : State K Sig H A :=
  s.erase E key fun l => decide (l.id = id)

def removeAllListeners (s : State K Sig H A) (key : K) : State K Sig H A :=
  s.erase E key fun _ => true

/-- The second loop of `emit`: the next handler of the innermost emit is called, or it is over. -/
def next (s : State K Sig H A) : Option (State K Sig H A) :=
  match s.stack with
  | [] => none
  | f :: stack =>
    match f.rest with
    | l :: ls => some { s with stack := { f with rest := ls, invoked := f.invoked ++ [l] } :: stack }
    | [] => some { s with stack := stack, finished := s.finished ++ [f] }

end State

def step (s : State K Sig H A) : Act K Sig H A → Option (State K Sig H A)
  | .addListener key handler once => (s.addListener E key handler once).map Prod.fst
  | .removeListener key id => some (s.removeListener E key id)
  | .removeAllListeners key => some (s.removeAllListeners E key)
  | .emit key args => some (s.emit E key args)
  | .next => s.next

/-! ## What is registered -/

section

variable (r : Registry K Sig H) (key : K) (sig : Sig) (ls : List (Listener Sig H))

omit [DecidableEq K] in
theorem take_fst : (take sig ls).1 = ls.filter fun l => decide (l.sig = sig) := by
  induction ls with
  | nil => rfl
  | cons l ls ih =>
    simp only [take]
    by_cases hsig : l.sig = sig
    · rw [if_pos hsig, List.filter_cons_of_pos (by simpa using hsig), ← ih]
      split_ifs <;> rfl
    · rw [if_neg hsig, List.filter_cons_of_neg (by simpa using hsig), ← ih]

omit [DecidableEq K] in
theorem take_snd : (take sig ls).2 = ls.filter fun l => !(decide (l.sig = sig) && l.isOnce) := by
  induction ls with
  | nil => rfl
  | cons l ls ih =>
    simp only [take]
    by_cases hsig : l.sig = sig
    · rw [if_pos hsig]
      by_cases honce : l.isOnce = true
      · rw [if_pos honce, List.filter_cons_of_neg (by simp [hsig, honce]), ← ih]
      · rw [if_neg honce, List.filter_cons_of_pos (by simp [honce]), ← ih]
    · rw [if_neg hsig, List.filter_cons_of_pos (by simp [hsig]), ← ih]

namespace Registry

omit [DecidableEq Sig] in
theorem of_append_self (l : Listener Sig H) : of (r ++ [(key, l)]) key = of r key ++ [l] := by
  simp [of]

omit [DecidableEq Sig] in
theorem of_append_ne {key' : K} (hne : key' ≠ key) (l : Listener Sig H) :
    of (r ++ [(key, l)]) key' = of r key' := by
  simp [of, hne.symm]

omit [DecidableEq Sig] in
theorem of_drop_self (p : Listener Sig H → Bool) :
    (r.drop key p).of key = (r.of key).filter fun l => !p l := by
  simp only [of, drop, List.filter_filter, List.filter_map]
  congr 2
  funext entry
  by_cases hkey : entry.1 = key <;> simp [hkey]

omit [DecidableEq Sig] in
theorem of_drop_ne {key' : K} (hne : key' ≠ key) (p : Listener Sig H → Bool) :
    (r.drop key p).of key' = r.of key' := by
  simp only [of, drop, List.filter_filter]
  congr 2
  funext entry
  by_cases hkey : entry.1 = key'
  · simp [hkey, hne]
  · simp [hkey]

omit [DecidableEq Sig] in
theorem mem_of_mem_drop {p : Listener Sig H → Bool} {l : Listener Sig H}
    (h : l ∈ (r.drop key p).map Prod.snd) : l ∈ r.map Prod.snd :=
  (List.filter_sublist.map Prod.snd).subset h

theorem mem_of_mem_matching {l : Listener Sig H} (h : l ∈ r.matching key sig) : l ∈ r.map Prod.snd :=
  (List.filter_sublist.map Prod.snd).subset (List.mem_of_mem_filter h)

/-- A listener for once is either among the `matching` ones or still registered. -/
theorem once_perm :
    (((r.matching key sig) ++ (r.emitted key sig).map Prod.snd).filter Listener.isOnce).Perm
      ((r.map Prod.snd).filter Listener.isOnce) := by
  have hmatching : (r.matching key sig).filter Listener.isOnce
      = (((r.filter fun entry => entry.2.isOnce).filter fun entry =>
          decide (entry.1 = key) && decide (entry.2.sig = sig)).map Prod.snd) := by
    simp only [matching, of, List.filter_filter, List.filter_map]
    congr 2
    funext entry
    simp only [Function.comp]
    cases decide (entry.1 = key) <;> cases decide (entry.2.sig = sig) <;> simp
  have hemitted : ((r.emitted key sig).map Prod.snd).filter Listener.isOnce
      = (((r.filter fun entry => entry.2.isOnce).filter fun entry =>
          !(decide (entry.1 = key) && decide (entry.2.sig = sig))).map Prod.snd) := by
    simp only [emitted, drop, List.filter_filter, List.filter_map]
    congr 2
    funext entry
    simp only [Function.comp]
    cases decide (entry.1 = key) <;> cases decide (entry.2.sig = sig) <;> cases entry.2.isOnce <;> rfl
  rw [List.filter_append, hmatching, hemitted, ← List.map_append, List.filter_map]
  exact (List.filter_append_perm _ _).map Prod.snd

end Registry

end

/-! ## What a run keeps -/

/-- Whom the emits of a run have called. -/
def State.called (s : State K Sig H A) : List (Listener Sig H) :=
  (s.finished ++ s.stack).flatMap Frame.invoked

/-- Every emit calls those who were registered when it started, in order and once each; a listener
for once is called at most once in the run; and the ids that were returned are distinct. -/
structure Delivers (s : State K Sig H A) : Prop where
  ended : ∀ f ∈ s.finished, f.invoked = f.expected
  running : ∀ f ∈ s.stack, f.invoked ++ f.rest = f.expected
  once : ((s.called.filter Listener.isOnce).map Listener.id).Nodup
  distinct : s.ids.Nodup
  nonzero : 0 ∉ s.ids

/-- Whom the emits of a run call, or will call. -/
def State.due (s : State K Sig H A) : List (Listener Sig H) :=
  (s.finished ++ s.stack).flatMap Frame.expected

/-- The listeners for once are listed once, and no number is above the last one. -/
structure Numbered (last : Nat) (ls : List (Listener Sig H)) : Prop where
  once : ((ls.filter Listener.isOnce).map Listener.id).Nodup
  le : ∀ l ∈ ls, l.id.natAbs ≤ last

structure Inv (s : State K Sig H A) : Prop where
  table : ∀ key, (s.listeners.table key).getD [] = s.registered.of key
  ended : ∀ f ∈ s.finished, f.invoked = f.expected
  running : ∀ f ∈ s.stack, f.invoked ++ f.rest = f.expected
  numbered : Numbered s.listeners.last (s.due ++ s.registered.map Prod.snd)
  ids : s.ids.Nodup ∧ ∀ id ∈ s.ids, id ≠ 0 ∧ id.natAbs ≤ s.listeners.last

variable {E}

omit [DecidableEq K] [DecidableEq Sig] in
theorem Numbered.perm {last : Nat} {ls ls' : List (Listener Sig H)} (h : Numbered last ls)
    (hperm : ((ls'.filter Listener.isOnce)).Perm (ls.filter Listener.isOnce)) (hsub : ls' ⊆ ls) :
    Numbered last ls' :=
  ⟨(hperm.map Listener.id).nodup_iff.mpr h.once, fun l hl => h.le l (hsub hl)⟩

omit [DecidableEq K] [DecidableEq Sig] in
theorem Numbered.sublist {last : Nat} {ls ls' : List (Listener Sig H)} (h : Numbered last ls)
    (hsub : ls'.Sublist ls) : Numbered last ls' :=
  ⟨h.once.sublist ((hsub.filter _).map _), fun l hl => h.le l (hsub.subset hl)⟩

omit [DecidableEq K] [DecidableEq Sig] in
/-- A new listener has a number of its own. -/
theorem Numbered.append {last : Nat} {ls : List (Listener Sig H)} (h : Numbered last ls)
    (l : Listener Sig H) (hl : l.id.natAbs = last + 1) : Numbered (last + 1) (ls ++ [l]) := by
  have hnew : ∀ l' ∈ ls, l'.id ≠ l.id := by
    intro l' hl' heq
    have hle := h.le l' hl'
    rw [heq, hl] at hle
    omega
  constructor
  · rw [List.filter_append, List.map_append, List.nodup_append]
    refine ⟨h.once, ?_, ?_⟩
    · by_cases honce : l.isOnce = true <;> simp [honce]
    · intro id hid id' hid'
      obtain ⟨l', hl', rfl⟩ := List.mem_map.mp hid
      obtain ⟨l'', hl'', rfl⟩ := List.mem_map.mp hid'
      obtain rfl := List.mem_singleton.mp (List.mem_of_mem_filter hl'')
      exact hnew l' (List.mem_of_mem_filter hl')
  · intro l' hl'
    rcases List.mem_append.mp hl' with hl' | hl'
    · exact Nat.le_succ_of_le (h.le l' hl')
    · obtain rfl := List.mem_singleton.mp hl'
      exact Nat.le_of_eq hl

omit [DecidableEq K] [DecidableEq Sig] in
theorem natAbs_nextId (e : Listeners K Sig H) (once : Bool) : (e.nextId once).natAbs = e.last + 1 := by
  cases once <;> simp [Listeners.nextId] <;> omega

/-! ### Steps -/

theorem table_emit (e : Listeners K Sig H) (key : K) (args : A) (key' : K) :
    ((e.emit E key args).1.table key').getD []
      = if key' = key then ((e.table key).getD []).filter fun l =>
          !(decide (l.sig = E.sigOf args) && l.isOnce)
        else (e.table key').getD [] := by
  unfold Listeners.emit
  cases htable : e.table key with
  | none =>
    split_ifs with hkey
    · rw [hkey, htable]
      rfl
    · rfl
  | some ls =>
    simp only [take_snd]
    split_ifs with hkey
    · rw [hkey, Function.update_self]
      rfl
    · rw [Function.update_of_ne hkey]

theorem emit_snd (e : Listeners K Sig H) (key : K) (args : A) :
    (e.emit E key args).2 = ((e.table key).getD []).filter fun l => decide (l.sig = E.sigOf args) := by
  unfold Listeners.emit
  cases e.table key with
  | none => rfl
  | some ls => exact take_fst (E.sigOf args) ls

theorem last_emit (e : Listeners K Sig H) (key : K) (args : A) :
    (e.emit E key args).1.last = e.last := by
  unfold Listeners.emit
  cases e.table key <;> rfl

omit [DecidableEq K] [DecidableEq Sig] in
theorem due_push (s : State K Sig H A) (f : Frame Sig H A) :
    State.due { s with stack := f :: s.stack } |>.Perm (s.due ++ f.expected) := by
  simp only [State.due, List.flatMap_append, List.flatMap_cons, List.append_assoc]
  exact List.perm_append_comm.append_left _

theorem inv_emit {s : State K Sig H A} (h : Inv s) (key : K) (args : A) : Inv (s.emit E key args) where
  table := by
    intro key'
    simp only [State.emit, table_emit, Registry.emitted]
    split_ifs with hkey
    · rw [hkey, Registry.of_drop_self, h.table]
    · rw [Registry.of_drop_ne _ _ hkey, h.table]
  ended := h.ended
  running := by
    intro f hf
    rcases List.mem_cons.mp hf with rfl | hf
    · simp only [emit_snd, h.table, List.nil_append]
      rfl
    · exact h.running f hf
  numbered := by
    simp only [State.emit, last_emit]
    have hdue := due_push s ⟨args, (s.listeners.emit E key args).2,
      s.registered.matching key (E.sigOf args), []⟩
    apply h.numbered.perm
    · refine ((hdue.append_right _).filter _).trans ?_
      rw [List.append_assoc, List.filter_append, List.filter_append s.due]
      exact (s.registered.once_perm key (E.sigOf args)).append_left _
    · intro l hl
      rcases List.mem_append.mp hl with hl | hl
      · rcases List.mem_append.mp (hdue.mem_iff.mp hl) with hl | hl
        · exact List.mem_append_left _ hl
        · exact List.mem_append_right _ (s.registered.mem_of_mem_matching key _ hl)
      · exact List.mem_append_right _ (s.registered.mem_of_mem_drop key hl)
  ids := by
    simp only [State.emit, last_emit]
    exact h.ids

theorem inv_addListener {s s' : State K Sig H A} {id : Int} (h : Inv s) (key : K)
    (handler : Option (Sig × H)) (once : Bool)
    (hadd : s.addListener E key handler once = some (s', id)) : Inv s' := by
  unfold State.addListener at hadd
  cases handler with
  | none =>
    obtain ⟨rfl, -⟩ := Prod.mk.inj (Option.some.inj hadd)
    exact h
  | some handler =>
    obtain ⟨sig, handler⟩ := handler
    simp only at hadd
    split_ifs at hadd
    obtain ⟨rfl, -⟩ := Prod.mk.inj (Option.some.inj hadd)
    have habs := natAbs_nextId s.listeners once
    apply inv_emit
    refine ⟨fun key' => ?_, h.ended, h.running, ?_, ?_, ?_⟩
    · simp only [Listeners.register]
      by_cases hkey : key' = key
      · rw [hkey, Function.update_self, Registry.of_append_self, ← h.table key]
        rfl
      · rw [Function.update_of_ne hkey, Registry.of_append_ne _ _ hkey, h.table]
    · simp only [Listeners.register, List.map_append, ← List.append_assoc]
      exact h.numbered.append _ habs
    · rw [List.nodup_append]
      refine ⟨h.ids.1, List.nodup_singleton _, ?_⟩
      rintro id hid id' hid' rfl
      have hle := (h.ids.2 id hid).2
      rw [List.mem_singleton.mp hid', habs] at hle
      omega
    · intro id hid
      simp only [Listeners.register]
      rcases List.mem_append.mp hid with hid | hid
      · exact ⟨(h.ids.2 id hid).1, Nat.le_succ_of_le (h.ids.2 id hid).2⟩
      · rw [List.mem_singleton.mp hid]
        refine ⟨?_, Nat.le_of_eq habs⟩
        rw [← Int.natAbs_ne_zero, habs]
        omega

theorem inv_erase {s : State K Sig H A} (h : Inv s) (key : K) (p : Listener Sig H → Bool) :
    Inv (s.erase E key p) := by
  unfold State.erase
  split_ifs
  · apply inv_emit
    refine ⟨fun key' => ?_, h.ended, h.running, ?_, h.ids⟩
    · simp only [Listeners.erase]
      by_cases hkey : key' = key
      · rw [hkey, Function.update_self, Registry.of_drop_self, ← h.table key]
        rfl
      · rw [Function.update_of_ne hkey, Registry.of_drop_ne _ _ hkey, h.table]
    · apply h.numbered.sublist
      exact (List.filter_sublist.map Prod.snd).append_left _
  · exact h

omit [DecidableEq Sig] in
theorem inv_next {s s' : State K Sig H A} (h : Inv s) (hnext : s.next = some s') : Inv s' := by
  obtain ⟨listeners, stack, registered, finished, ids⟩ := s
  unfold State.next at hnext
  cases stack with
  | nil => simp at hnext
  | cons f stack =>
    have hrunning := h.running f List.mem_cons_self
    have hstack : ∀ f' ∈ stack, f'.invoked ++ f'.rest = f'.expected :=
      fun f' hf' => h.running f' (List.mem_cons_of_mem f hf')
    simp only at hnext
    cases hrest : f.rest with
    | cons l ls =>
      rw [hrest] at hnext hrunning
      obtain rfl := Option.some.inj hnext
      refine ⟨h.table, h.ended, ?_, ?_, h.ids⟩
      · rw [List.forall_mem_cons]
        refine ⟨?_, hstack⟩
        rw [← hrunning]
        simp
      · simpa [State.due] using h.numbered
    | nil =>
      rw [hrest] at hnext hrunning
      rw [List.append_nil] at hrunning
      obtain rfl := Option.some.inj hnext
      refine ⟨h.table, ?_, hstack, ?_, h.ids⟩
      · intro f' hf'
        rcases List.mem_append.mp hf' with hf' | hf'
        · exact h.ended f' hf'
        · rw [List.mem_singleton.mp hf']
          exact hrunning
      · simpa [State.due] using h.numbered

theorem inv_step (s : State K Sig H A) (a : Act K Sig H A) (s' : State K Sig H A) (h : Inv s)
    (hstep : step E s a = some s') : Inv s' := by
  cases a with
  | addListener key handler once =>
    obtain ⟨⟨s'', id⟩, hadd, rfl⟩ := Option.map_eq_some_iff.mp hstep
    exact inv_addListener h key handler once hadd
  | removeListener key id =>
    obtain rfl := Option.some.inj hstep
    exact inv_erase h key _
  | removeAllListeners key =>
    obtain rfl := Option.some.inj hstep
    exact inv_erase h key _
  | emit key args =>
    obtain rfl := Option.some.inj hstep
    exact inv_emit h key args
  | next => exact inv_next h hstep

omit [DecidableEq Sig] in
theorem inv_create : Inv (State.create : State K Sig H A) where
  table := fun _ => rfl
  ended := fun _ hf => nomatch hf
  running := fun _ hf => nomatch hf
  numbered := ⟨List.nodup_nil, fun _ hl => nomatch hl⟩
  ids := ⟨List.nodup_nil, fun _ hid => nomatch hid⟩

omit [DecidableEq K] [DecidableEq Sig] in
theorem invoked_sublist {fs : List (Frame Sig H A)} (h : ∀ f ∈ fs, f.invoked <+: f.expected) :
    (fs.flatMap Frame.invoked).Sublist (fs.flatMap Frame.expected) := by
  induction fs with
  | nil => exact .slnil
  | cons f fs ih =>
    rw [List.flatMap_cons, List.flatMap_cons]
    apply List.Sublist.append
    · exact (h f List.mem_cons_self).sublist
    · exact ih fun f' hf' => h f' (List.mem_cons_of_mem f hf')

omit [DecidableEq Sig] in
theorem Inv.delivers {s : State K Sig H A} (h : Inv s) : Delivers s where
  ended := h.ended
  running := h.running
  once := by
    have hframes : ∀ f ∈ s.finished ++ s.stack, f.invoked <+: f.expected := by
      intro f hf
      rcases List.mem_append.mp hf with hf | hf
      · exact ⟨[], by rw [List.append_nil, h.ended f hf]⟩
      · exact ⟨f.rest, h.running f hf⟩
    have hsub : s.called.Sublist (s.due ++ s.registered.map Prod.snd) :=
      (invoked_sublist hframes).trans (List.sublist_append_left _ _)
    exact (h.numbered.sublist hsub).once
  distinct := h.ids.1
  nonzero := fun hmem => (h.ids.2 0 hmem).1 rfl

/-- Whatever is done to an emitter, between any two calls of handlers: every emit calls those who were
registered for its event and arguments when it started, in the order of registration and once each. -/
theorem run_delivers (as : List (Act K Sig H A)) (s : State K Sig H A)
    (h : run (step E) State.create as = some s) : Delivers s :=
  (invariant inv_step h inv_create).delivers

/-- The types of the arguments are a number, and so are the arguments. -/
def plain : Setting Nat Nat Nat := ⟨fun args => args, 0, 1, fun _ _ => 7⟩

/-- The first of two handlers emits the event again and removes the second; one of the two is for
once. -/
def nested : List (Act Nat Nat Unit Nat) :=
  [.addListener 5 (some (3, ())) true, .next, .addListener 5 (some (3, ())) false, .next,
    .addListener 5 (some (4, ())) false, .next, .addListener 5 none false, .emit 5 3, .next, .emit 5 3,
    .removeListener 5 2, .next, .next, .next, .next, .next]

theorem nested_delivers :
    (run (step plain) State.create nested).map (fun s => (s.called.map Listener.id, s.ids, s.stack.length))
        = some ([2, -1, 2], [-1, 2, 3], 0) ∧
      ∀ s, run (step plain) State.create nested = some s → Delivers s :=
  ⟨by decide, fun s h => run_delivers nested s h⟩

end Nodeoze.Event.Emitter
