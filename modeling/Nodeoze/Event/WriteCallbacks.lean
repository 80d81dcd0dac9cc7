import Mathlib.Data.List.Perm.Basic
import Nodeoze.Event.Writable

/-!
# The callbacks of writes

`write` registers its callback for the next `drain`, once, when the write has been started.  So a
callback is called when everything that waited has been written, too; but a write that has to wait
drops its callback, and where `really_write` returns a promise that is settled, `drain` is over before
the callback is registered.

This is the stream again, with the listeners that the callbacks become.  The writes are numbered, and
each has a callback.
-/

namespace Nodeoze.Event.WriteCallbacks

open Runs

/-- Code of the user that runs; a `drain` has listeners still to call.  `once_` is a call of `write`
that goes on, with `once`, when what is above it is over. -/
inductive Frame
  | reallyWrite (n : Nat)
  | error
  | drain (rest : List Nat)
  | finish
  | once_ (n : Nat)
  deriving DecidableEq, Repr

/-- `stream::writable` with the callbacks that are listeners of `drain`.  The number of writes, those
whose `really_write` was called, those whose promise is not settled and those whose promise is, and
the callbacks that were called are recorded, the latter with whether their write was settled. -/
structure State where
  writing : Bool
  queue : List Nat
  ended : Bool
  stack : List Frame
  listeners : List Nat
  count : Nat
  called : List Nat
  pending : List Nat
  settled : List Nat
  invoked : List (Nat × Bool)
  deriving DecidableEq, Repr

namespace State

def create : State := ⟨false, [], false, [], [], 0, [], [], [], []⟩

/-- `start_write`, up to the call of `really_write`. -/
def startWrite (s : State) (n : Nat) : State :=
  { s with writing := true, called := s.called ++ [n], stack := .reallyWrite n :: s.stack }

/-- `write`, whose callback is dropped where it waits. -/
def write (s : State) : State :=
  let n := s.count
  let s := { s with count := n + 1 }
  if !s.writing then { s with stack := .once_ n :: s.stack }.startWrite n
  else { s with queue := s.queue ++ [n] }

/-- The callback of `finally`; to emit `drain` takes the listeners for once. -/
def next (s : State) : State :=
  match s.queue with
  | n :: queue => { s with queue := queue }.startWrite n
  | [] => { s with writing := false, listeners := [], stack := .drain s.listeners :: s.stack }

/-- The promise of a write is settled. -/
def settle (s : State) (n : Nat) (rejected : Bool) : State :=
  let s := { s with settled := s.settled ++ [n] }
  if rejected then { s with stack := .error :: s.stack } else s.next

/-- `end` -/
def finishing (s : State) : State :=
  let s := { s with ended := true }
  if !s.writing then { s with stack := .finish :: s.stack } else s

/-- The callback of a `write` is registered when nothing is above it any more. -/
def goesOn (s : State) : State :=
  match s.stack with
  | .once_ n :: stack => { s with stack := stack, listeners := s.listeners ++ [n] }
  | _ => s

end State

inductive Act
  | write
  | finishing
  | settle (n : Nat) (rejected : Bool)
  | returns (outcome : Option Bool)
  deriving DecidableEq, Repr

/-- The acts are those of the stream.  While a `drain` runs, its listeners return one after the
other. -/
def step (s : State) : Act → Option State
  | .write => some s.write
  | .finishing => some s.finishing
  | .settle n rejected =>
    if n ∈ s.pending then some ({ s with pending := s.pending.erase n }.settle n rejected) else none
  | .returns outcome =>
    match s.stack with
    | [] => none
    | .reallyWrite n :: stack =>
      match outcome with
      | none => some { s with stack := stack, pending := s.pending ++ [n] }.goesOn
      | some rejected => some ({ s with stack := stack }.settle n rejected)
    | .error :: stack => some { s with stack := stack }.next
    | .drain (n :: rest) :: stack =>
      some { s with stack := .drain rest :: stack, invoked := s.invoked ++ [(n, decide (n ∈ s.settled))] }
    | .drain [] :: stack =>
      some (if s.ended then { s with stack := .finish :: stack } else { s with stack := stack }.goesOn)
    | .finish :: stack => some { s with stack := stack }.goesOn
    | .once_ _ :: _ => none

/-! ## Without the callbacks -/

def Frame.forget : Frame → Option Writable.Frame
  | .reallyWrite _ => some .reallyWrite
  | .error => some .error
  | .drain _ => some .drain
  | .finish => some .finish
  | .once_ _ => none

@[simp] theorem filterMap_once (n : Nat) (stack : List Frame) :
    (Frame.once_ n :: stack).filterMap Frame.forget = stack.filterMap Frame.forget := rfl

/-- The stream without its callbacks; its buffers are the numbers of the writes. -/
def State.forget (s : State) : Writable.Stream Nat :=
  ⟨s.writing, s.queue, s.ended, s.stack.filterMap Frame.forget, s.pending.length, List.range s.count,
    s.called⟩

theorem forget_next (s : State) : s.next.forget = s.forget.next := by
  unfold State.next Writable.Stream.next
  cases hqueue : s.queue with
  | nil => simp [State.forget, hqueue, Frame.forget]
  | cons n queue =>
    simp [State.forget, hqueue, State.startWrite, Writable.Stream.startWrite, Frame.forget]

theorem forget_settle (s : State) (n : Nat) (rejected : Bool) :
    (s.settle n rejected).forget = s.forget.settled rejected := by
  unfold State.settle Writable.Stream.settled
  cases rejected with
  | false => exact forget_next _
  | true => rfl

theorem forget_goesOn (s : State) : s.goesOn.forget = s.forget := by
  unfold State.goesOn
  split
  · rename_i n stack hstack
    simp [State.forget, hstack, Frame.forget]
  · rfl

theorem forget_write (s : State) : s.write.forget = (s.forget.write s.count).1 := by
  unfold State.write Writable.Stream.write
  cases hwriting : s.writing with
  | false => simp [State.forget, State.startWrite, Writable.Stream.startWrite, hwriting, Frame.forget, List.range_succ]
  | true => simp [State.forget, hwriting, List.range_succ]

theorem forget_finishing (s : State) : s.finishing.forget = s.forget.finishing := by
  unfold State.finishing Writable.Stream.finishing
  cases hwriting : s.writing with
  | false => simp [State.forget, hwriting, Frame.forget]
  | true => simp [State.forget, hwriting]

/-- The callbacks change nothing about the stream. -/
theorem forget_step {s s' : State} {a : Act} (h : step s a = some s') :
    s'.forget = s.forget ∨ ∃ a', Writable.step s.forget a' = some s'.forget := by
  cases a with
  | write =>
    obtain rfl := Option.some.inj h
    exact .inr ⟨.write s.count, congrArg some (forget_write s).symm⟩
  | finishing =>
    obtain rfl := Option.some.inj h
    exact .inr ⟨.finishing, congrArg some (forget_finishing s).symm⟩
  | settle n rejected =>
    simp only [step] at h
    split_ifs at h with hmem
    obtain rfl := Option.some.inj h
    refine .inr ⟨.settle rejected, ?_⟩
    have hpos : 0 < s.forget.unsettled := List.length_pos_of_mem hmem
    rw [Writable.step, if_pos hpos, forget_settle]
    simp [State.forget, List.length_erase_of_mem hmem]
  | returns outcome =>
    unfold step at h
    simp only at h
    split at h
    · contradiction
    · rename_i n stack hstack
      have htop : s.forget.stack = .reallyWrite :: stack.filterMap Frame.forget := by
        simp [State.forget, hstack, Frame.forget]
      refine .inr ⟨.returns outcome, ?_⟩
      cases outcome with
      | none =>
        obtain rfl := Option.some.inj h
        rw [forget_goesOn]
        simp only [Writable.step, htop]
        simp [State.forget]
      | some rejected =>
        obtain rfl := Option.some.inj h
        rw [forget_settle]
        simp only [Writable.step, htop]
        simp [State.forget]
    · rename_i stack hstack
      have htop : s.forget.stack = .error :: stack.filterMap Frame.forget := by
        simp [State.forget, hstack, Frame.forget]
      obtain rfl := Option.some.inj h
      refine .inr ⟨.returns outcome, ?_⟩
      rw [forget_next]
      simp only [Writable.step, htop]
      simp [State.forget]
    · -- the stream does not know how many listeners it has
      rename_i n rest stack hstack
      obtain rfl := Option.some.inj h
      left
      simp [State.forget, hstack, Frame.forget]
    · rename_i stack hstack
      have htop : s.forget.stack = .drain :: stack.filterMap Frame.forget := by
        simp [State.forget, hstack, Frame.forget]
      obtain rfl := Option.some.inj h
      refine .inr ⟨.returns outcome, ?_⟩
      cases hended : s.ended with
      | false =>
        simp only [Bool.false_eq_true, if_false]
        rw [forget_goesOn]
        simp only [Writable.step, htop]
        simp [State.forget, hended]
      | true =>
        simp only [Writable.step, htop]
        simp [State.forget, hended, Frame.forget]
    · rename_i stack hstack
      have htop : s.forget.stack = .finish :: stack.filterMap Frame.forget := by
        simp [State.forget, hstack, Frame.forget]
      obtain rfl := Option.some.inj h
      refine .inr ⟨.returns outcome, ?_⟩
      rw [forget_goesOn]
      simp only [Writable.step, htop]
      simp [State.forget]
    · contradiction

theorem inv_forget_step {s s' : State} {a : Act} (hinv : Writable.Inv s.forget) (h : step s a = some s') :
    Writable.Inv s'.forget := by
  rcases forget_step h with hsame | ⟨a', hstep⟩
  · rw [hsame]
    exact hinv
  · exact Writable.inv_step _ _ _ hinv hstep

/-! ## What becomes of the callbacks -/

/-- The callbacks that a frame has still to call or to register. -/
def Frame.callbacks : Frame → List Nat
  | .drain rest => rest
  | .once_ n => [n]
  | _ => []

/-- The callbacks that are not lost. -/
def State.callbacks (s : State) : List Nat :=
  s.invoked.map Prod.fst ++ (s.stack.flatMap Frame.callbacks ++ s.listeners)

def Frame.making : Frame → Option Nat
  | .reallyWrite n => some n
  | _ => none

/-- The writes that have been started and are not settled. -/
def State.making (s : State) : List Nat := s.stack.filterMap Frame.making ++ s.pending

/-- A callback is registered right after `really_write` has returned. -/
def Paired : List Frame → Prop
  | [] => True
  | .reallyWrite _ :: .once_ _ :: stack => Paired stack
  | .reallyWrite _ :: _ => False
  | .once_ _ :: _ => False
  | _ :: stack => Paired stack

def State.inReallyWrite (s : State) : Bool :=
  match s.stack with
  | .reallyWrite _ :: _ => true
  | _ => false

/-- Nothing is written while the stream is writing, and `really_write` returns promises that are not
settled. -/
def plain (s : State) : Act → Prop
  | .write => s.writing = false
  | .returns outcome => s.inReallyWrite = true → outcome = none
  | _ => True

instance (s : State) : ∀ a : Act, Decidable (plain s a)
  | .write => inferInstanceAs (Decidable (s.writing = false))
  | .finishing => isTrue trivial
  | .settle _ _ => isTrue trivial
  | .returns outcome => inferInstanceAs (Decidable (s.inReallyWrite = true → outcome = none))

/-- No callback is called twice, or before its write is settled; and when no code runs and nothing is
unsettled, all have been called. -/
structure CalledOnce (s : State) : Prop where
  once : (s.invoked.map Prod.fst).Nodup
  timely : ∀ e ∈ s.invoked, e.2 = true
  rest : s.stack = [] → s.pending = [] → (s.invoked.map Prod.fst).Perm (List.range s.count)

/-- No callback is lost, and no `drain` has one of a write that is not settled. -/
structure Sound (s : State) : Prop where
  all : s.callbacks.Perm (List.range s.count)
  known : ∀ n < s.count, n ∈ s.settled ∨ n ∈ s.making
  empty : s.queue = []
  due : ∀ rest, .drain rest ∈ s.stack → ∀ n ∈ rest, n ∈ s.settled
  timely : ∀ e ∈ s.invoked, e.2 = true
  paired : Paired s.stack

structure Kept (s : State) : Prop extends Sound s where
  stream : Writable.Inv s.forget
  idle : s.writing = false → s.listeners = []

theorem kept_create : Kept .create where
  all := List.Perm.refl _
  known := fun n hn => absurd hn (Nat.not_lt_zero n)
  empty := rfl
  due := fun rest h => by cases h
  timely := fun e h => by cases h
  paired := trivial
  stream := Writable.inv_create
  idle := fun _ => rfl

theorem Kept.calledOnce {s : State} (h : Kept s) : CalledOnce s := by
  have hnodup : s.callbacks.Nodup := h.all.nodup_iff.mpr List.nodup_range
  refine ⟨(List.nodup_append.mp hnodup).1, h.timely, fun hstack hpending => ?_⟩
  have hbusy := h.stream.busy
  have hwriting : s.writing = false := by
    by_contra hne
    rw [Bool.not_eq_false] at hne
    simp [State.forget, hstack, hpending, hne] at hbusy
  have hall := h.all
  rw [State.callbacks, hstack, h.idle hwriting] at hall
  simpa using hall

/-! ### Frames without callbacks -/

/-- The frame has no callback, and belongs to no `write`. -/
def Frame.bare : Frame → Bool
  | .error => true
  | .finish => true
  | .drain [] => true
  | _ => false

theorem paired_bare {f : Frame} (hf : f.bare = true) (stack : List Frame) :
    Paired (f :: stack) ↔ Paired stack := by
  unfold Frame.bare at hf
  split at hf
  · simp [Paired]
  · simp [Paired]
  · simp [Paired]
  · contradiction

theorem sound_bare {f : Frame} (hf : f.bare = true) (s : State) (stack : List Frame) :
    Sound { s with stack := f :: stack } ↔ Sound { s with stack := stack } := by
  have hcallbacks : f.callbacks = [] := by
    unfold Frame.bare at hf
    split at hf <;> first | rfl | contradiction
  have hmaking : f.making = none := by
    unfold Frame.bare at hf
    split at hf <;> first | rfl | contradiction
  have hdrain : ∀ rest, f = .drain rest → rest = [] := by
    rintro rest rfl
    cases rest with
    | nil => rfl
    | cons n rest => contradiction
  constructor
  · intro h
    refine ⟨?_, ?_, h.empty, fun rest hrest => h.due rest (List.mem_cons_of_mem _ hrest), h.timely,
      (paired_bare hf stack).mp h.paired⟩
    · simpa [State.callbacks, hcallbacks] using h.all
    · simpa [State.making, hmaking] using h.known
  · intro h
    refine ⟨?_, ?_, h.empty, fun rest hrest n hn => ?_, h.timely, (paired_bare hf stack).mpr h.paired⟩
    · simpa [State.callbacks, hcallbacks] using h.all
    · simpa [State.making, hmaking] using h.known
    · rcases List.mem_cons.mp hrest with heq | hrest
      · rw [hdrain rest heq.symm] at hn
        cases hn
      · exact h.due rest hrest n hn

theorem goesOn_of_paired {s : State} (h : Paired s.stack) : s.goesOn = s := by
  unfold State.goesOn
  split
  · rename_i n stack hstack
    rw [hstack] at h
    exact absurd h id
  · rfl

/-! ### Steps -/

theorem making_nil {s : State} (hbusy : s.forget.stack.countP Writable.Frame.busy + s.forget.unsettled = 0) :
    s.making = [] := by
  have hpending : s.pending = [] := by
    apply List.eq_nil_of_length_eq_zero
    have hlength : s.forget.unsettled = s.pending.length := rfl
    omega
  rw [State.making, hpending, List.append_nil, List.filterMap_eq_nil_iff]
  intro f hf
  cases f with
  | reallyWrite n =>
    have hmem : Writable.Frame.reallyWrite ∈ s.forget.stack := List.mem_filterMap.mpr ⟨_, hf, rfl⟩
    have hpos : 0 < s.forget.stack.countP Writable.Frame.busy := List.countP_pos_iff.mpr ⟨_, hmem, rfl⟩
    omega
  | _ => rfl

/-- The `drain` after the last write takes all listeners. -/
theorem kept_next {s : State} (h : Sound s) (hmaking : s.making = [])
    (hstream : Writable.Inv s.next.forget) : Kept s.next := by
  have hnext : s.next = { s with writing := false, listeners := [], stack := .drain s.listeners :: s.stack } := by
    simp [State.next, h.empty]
  rw [hnext] at hstream ⊢
  refine ⟨⟨?_, ?_, h.empty, ?_, h.timely, ?_⟩, hstream, fun _ => rfl⟩
  · refine List.Perm.trans ?_ h.all
    simp only [State.callbacks, List.flatMap_cons, Frame.callbacks, List.append_nil]
    exact List.Perm.append_left _ List.perm_append_comm
  · intro n hn
    exact h.known n hn
  · intro rest hrest n hn
    rcases List.mem_cons.mp hrest with heq | hrest
    · obtain rfl := Frame.drain.inj heq
      have hmem : n ∈ s.callbacks := by simp [State.callbacks, hn]
      have hlt : n < s.count := List.mem_range.mp (h.all.subset hmem)
      rcases h.known n hlt with hsettled | hmade
      · exact hsettled
      · rw [hmaking] at hmade
        cases hmade
    · exact h.due rest hrest n hn
  · simpa [Paired] using h.paired

theorem kept_write {s : State} (h : Kept s) (hwriting : s.writing = false)
    (hstream : Writable.Inv s.write.forget) : Kept s.write := by
  have hwrite : s.write = { s with
      writing := true, count := s.count + 1, called := s.called ++ [s.count],
      stack := .reallyWrite s.count :: .once_ s.count :: s.stack } := by
    simp [State.write, State.startWrite, hwriting]
  rw [hwrite] at hstream ⊢
  refine ⟨⟨?_, ?_, h.empty, ?_, h.timely, ?_⟩, hstream, fun hne => by cases hne⟩
  · rw [List.range_succ]
    refine List.Perm.trans ?_ (h.all.append_right [s.count])
    simp only [State.callbacks, List.flatMap_cons, Frame.callbacks, List.nil_append, List.append_assoc]
    apply List.Perm.append_left
    refine List.perm_append_comm.trans ?_
    rw [List.append_assoc]
  · intro n hn
    simp only [State.making, List.filterMap_cons, Frame.making]
    rcases Nat.lt_succ_iff_lt_or_eq.mp hn with hlt | rfl
    · rcases h.known n hlt with hsettled | hmade
      · exact .inl hsettled
      · exact .inr (List.mem_cons_of_mem _ hmade)
    · exact .inr List.mem_cons_self
  · intro rest hrest
    simp only [List.mem_cons, reduceCtorEq, false_or] at hrest
    exact h.due rest hrest
  · exact h.paired

theorem kept_settle {s : State} (h : Kept s) {n : Nat} (hn : n ∈ s.pending) (rejected : Bool)
    (hstream : Writable.Inv ({ s with pending := s.pending.erase n }.settle n rejected).forget) :
    Kept ({ s with pending := s.pending.erase n }.settle n rejected) := by
  have hbusy := h.stream.busy
  have hunsettled : s.forget.unsettled = s.pending.length := rfl
  have hpos : 0 < s.pending.length := List.length_pos_of_mem hn
  have hwriting : s.writing = true := h.stream.writing_of_busy (by omega)
  have hone : s.forget.stack.countP Writable.Frame.busy + s.pending.length = 1 := by
    rw [← hunsettled, hbusy]
    exact if_pos hwriting
  let s₁ : State := { s with pending := s.pending.erase n, settled := s.settled ++ [n] }
  have hsound : Sound s₁ := by
    refine ⟨h.all, ?_, h.empty, fun rest hrest m hm => ?_, h.timely, h.paired⟩
    · intro m hm
      rcases h.known m hm with hsettled | hmade
      · exact .inl (List.mem_append_left _ hsettled)
      · rcases List.mem_append.mp hmade with hframe | hpending
        · exact .inr (List.mem_append_left _ hframe)
        · by_cases heq : m = n
          · exact .inl (List.mem_append_right _ (List.mem_singleton.mpr heq))
          · exact .inr (List.mem_append_right _ ((List.mem_erase_of_ne heq).mpr hpending))
    · exact List.mem_append_left _ (h.due rest hrest m hm)
  cases rejected with
  | true => exact ⟨(sound_bare rfl s₁ s₁.stack).mpr hsound, hstream, fun hne => by
      rw [show _ = s.writing from rfl, hwriting] at hne
      cases hne⟩
  | false =>
    have hlength : s₁.forget.unsettled = s.pending.length - 1 := List.length_erase_of_mem hn
    have hsame : s₁.forget.stack = s.forget.stack := rfl
    have hmaking : s₁.making = [] := by
      apply making_nil
      rw [hlength, hsame]
      omega
    exact kept_next hsound hmaking hstream

/-- `really_write` returns a promise that is not settled, and the callback is registered. -/
theorem kept_started {s s' : State} (h : Kept s) {n : Nat} {stack : List Frame}
    (hstack : s.stack = .reallyWrite n :: stack)
    (hs' : s' = { s with stack := stack, pending := s.pending ++ [n] }.goesOn)
    (hstream : Writable.Inv s'.forget) : Kept s' := by
  have hpaired := h.paired
  have htop : s.forget.stack = .reallyWrite :: stack.filterMap Frame.forget := by
    simp [State.forget, hstack, Frame.forget]
  obtain ⟨hwriting, -⟩ := h.stream.of_top_busy htop rfl
  rw [hstack] at hpaired
  cases stack with
  | nil => exact absurd hpaired id
  | cons f stack =>
    cases f with
    | once_ m =>
      have hall := h.all
      have hknown := h.known
      simp only [State.callbacks, State.making, hstack, List.flatMap_cons, Frame.callbacks, List.nil_append,
        List.filterMap_cons, Frame.making] at hall hknown
      simp only [State.goesOn] at hs'
      subst hs'
      refine ⟨⟨?_, ?_, h.empty, ?_, h.timely, hpaired⟩, hstream, fun hne => ?_⟩
      · refine List.Perm.trans ?_ hall
        simp only [State.callbacks]
        apply List.Perm.append_left
        rw [← List.append_assoc, List.append_assoc [m]]
        exact List.perm_append_comm
      · intro k hk
        rcases hknown k hk with hsettled | hmade
        · exact .inl hsettled
        · right
          simp only [State.making, List.mem_append, List.mem_singleton]
          simp only [List.cons_append, List.mem_cons, List.mem_append] at hmade
          tauto
      · intro rest hrest
        exact h.due rest (by rw [hstack]; simp [hrest])
      · have htrue : s.writing = true := hwriting
        simp only [htrue] at hne
        cases hne
    | _ => exact absurd hpaired (by simp [Paired])

theorem kept_returns {s s' : State} (h : Kept s) {outcome : Option Bool}
    (hplain : plain s (.returns outcome)) (hstep : step s (.returns outcome) = some s') : Kept s' := by
  have hstream := inv_forget_step h.stream hstep
  have hsound := h.toSound
  unfold step at hstep
  simp only at hstep
  split at hstep
  · contradiction
  · rename_i n stack hstack
    obtain rfl : outcome = none := hplain (by simp [State.inReallyWrite, hstack])
    exact kept_started h hstack (Option.some.inj hstep).symm hstream
  · rename_i stack hstack
    -- the error has been told
    have htop : s.forget.stack = .error :: stack.filterMap Frame.forget := by
      simp [State.forget, hstack, Frame.forget]
    obtain ⟨-, hfree⟩ := h.stream.of_top_busy htop rfl
    obtain rfl := Option.some.inj hstep
    have hpopped : Sound { s with stack := stack } := (sound_bare rfl s stack).mp (by rw [← hstack]; exact hsound)
    exact kept_next hpopped (making_nil hfree) hstream
  · rename_i n rest stack hstack
    obtain rfl := Option.some.inj hstep
    have hsettled : n ∈ s.settled := h.due (n :: rest) (by simp [hstack]) n List.mem_cons_self
    have hall := h.all
    have hknown := h.known
    have hpaired := h.paired
    simp only [State.callbacks, State.making, hstack, List.flatMap_cons, List.filterMap_cons, Frame.callbacks,
      Frame.making] at hall hknown
    rw [hstack] at hpaired
    refine ⟨⟨?_, hknown, h.empty, ?_, ?_, by simpa [Paired] using hpaired⟩, hstream, h.idle⟩
    · simpa [State.callbacks, Frame.callbacks] using hall
    · intro rest' hrest m hm
      rcases List.mem_cons.mp hrest with heq | hrest
      · obtain rfl := Frame.drain.inj heq
        exact h.due (n :: rest') (by simp [hstack]) m (List.mem_cons_of_mem _ hm)
      · exact h.due rest' (by simp [hstack, hrest]) m hm
    · intro e he
      rcases List.mem_append.mp he with he | he
      · exact h.timely e he
      · rw [List.mem_singleton.mp he]
        exact decide_eq_true hsettled
  · rename_i stack hstack
    obtain rfl := Option.some.inj hstep
    have hpopped : Sound { s with stack := stack } := (sound_bare rfl s stack).mp (by rw [← hstack]; exact hsound)
    by_cases hended : s.ended = true
    · rw [if_pos hended] at hstream ⊢
      exact ⟨(sound_bare rfl s stack).mpr hpopped, hstream, h.idle⟩
    · rw [if_neg hended, goesOn_of_paired hpopped.paired] at hstream ⊢
      exact ⟨hpopped, hstream, h.idle⟩
  · rename_i stack hstack
    obtain rfl := Option.some.inj hstep
    have hpopped : Sound { s with stack := stack } := (sound_bare rfl s stack).mp (by rw [← hstack]; exact hsound)
    rw [goesOn_of_paired hpopped.paired] at hstream ⊢
    exact ⟨hpopped, hstream, h.idle⟩
  · contradiction

theorem kept_step (s : State) (a : Act) (s' : State) (h : Kept s) (hplain : plain s a)
    (hstep : step s a = some s') : Kept s' := by
  have hstream := inv_forget_step h.stream hstep
  cases a with
  | write =>
    obtain rfl := Option.some.inj hstep
    exact kept_write h hplain hstream
  | finishing =>
    obtain rfl := Option.some.inj hstep
    have hended : Sound { s with ended := true } := ⟨h.all, h.known, h.empty, h.due, h.timely, h.paired⟩
    cases hwriting : s.writing with
    | true =>
      have hsame : s.finishing = { s with ended := true } := by simp [State.finishing, hwriting]
      rw [hsame] at hstream ⊢
      exact ⟨hended, hstream, h.idle⟩
    | false =>
      have hsame : s.finishing = { s with ended := true, stack := .finish :: s.stack } := by
        simp [State.finishing, hwriting]
      rw [hsame] at hstream ⊢
      exact ⟨(sound_bare rfl { s with ended := true } s.stack).mpr hended, hstream, h.idle⟩
  | settle n rejected =>
    simp only [step] at hstep
    split_ifs at hstep with hmem
    obtain rfl := Option.some.inj hstep
    exact kept_settle h hmem rejected hstream
  | returns outcome => exact kept_returns h hplain hstep

/-- Every callback is called once, and not before its write is settled, in a run in which nothing is
written while the stream is writing and `really_write` returns promises that are not settled. -/
theorem callbacks_calledOnce (as : List Act) (s : State) (hplain : Meets step plain .create as)
    (h : run step .create as = some s) : CalledOnce s :=
  (invariant_of_meets kept_step hplain h kept_create).calledOnce

/-- The second write is made by the callback of the first. -/
def inCallback : List Act :=
  [.write, .returns none, .settle 0 false, .returns none, .write, .returns none, .settle 1 true,
    .returns none, .returns none, .returns none, .returns none]

theorem inCallback_calledOnce :
    (run step .create inCallback).map (fun s => (s.stack, s.pending, s.invoked))
        = some ([], [], [(0, true), (1, true)]) ∧
      ∀ s, run step .create inCallback = some s → CalledOnce s :=
  ⟨by decide, fun s h => callbacks_calledOnce inCallback s (by decide) h⟩

/-- The second write waits for the first. -/
def waits : List Act :=
  [.write, .returns none, .write, .settle 0 false, .returns none, .settle 1 false, .returns none,
    .returns none]

/-- The promise of the write is settled when `really_write` returns it. -/
def atOnce : List Act := [.write, .returns (some false), .returns none]

/-- The callback of the write that waits is never called, nor is that of the write that is settled at
once. -/
theorem callbacks_uncalled :
    (run step .create waits).map (fun s => (s.stack, s.settled, s.invoked))
        = some ([], [0, 1], [(0, true)]) ∧
      (∀ s, run step .create waits = some s → ¬CalledOnce s) ∧
      (run step .create atOnce).map (fun s => (s.stack, s.settled, s.invoked)) = some ([], [0], []) ∧
      ∀ s, run step .create atOnce = some s → ¬CalledOnce s := by
  refine ⟨by decide, fun s hs h => ?_, by decide, fun s hs h => ?_⟩
  · obtain rfl := Option.some.inj hs
    exact absurd (h.rest rfl rfl).length_eq (by decide)
  · obtain rfl := Option.some.inj hs
    exact absurd (h.rest rfl rfl).length_eq (by decide)

end Nodeoze.Event.WriteCallbacks
