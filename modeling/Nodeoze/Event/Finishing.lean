import Nodeoze.Event.Writable

/-!
# The end of a writable stream

`end` emits `finish` when nothing is written, and else the last write does when its `drain` is over.  An
`end` inside of a handler of `drain` is answered twice: by itself or by a write that is still to come,
and by the `drain` that runs.

A `Trace` is a stream that remembers how it was whenever `finish` was emitted.
-/

namespace Nodeoze.Event.Writable

open Runs

variable {B : Type}

/-- The act emits `finish`. -/
def emitsFinish (s : Stream B) : Act B → Bool
  | .finishing => !s.writing
  | .returns _ =>
    match s.stack with
    | .drain :: _ => s.ended
    | _ => false
  | _ => false

structure Trace (B : Type) where
  stream : Stream B
  finishes : List (Stream B)

namespace Trace

def create : Trace B := ⟨Stream.create, []⟩

def step (t : Trace B) (a : Act B) : Option (Trace B) :=
  (Writable.step t.stream a).map fun s =>
    ⟨s, if emitsFinish t.stream a then t.finishes ++ [s] else t.finishes⟩

end Trace

/-- Every buffer has been handed to `really_write`, and every write is settled. -/
structure AllSettled (s : Stream B) : Prop where
  called : s.called = s.written
  unsettled : s.unsettled = 0
  running : Frame.reallyWrite ∉ s.stack

/-- `finish` is emitted once and last: never before `end` or before a write is settled, and not twice;
and when no code runs and nothing is unsettled, it has been emitted. -/
structure Finished (t : Trace B) : Prop where
  once : t.finishes.length ≤ 1
  last : ∀ s ∈ t.finishes, s.ended = true ∧ AllSettled s
  rest : t.stream.stack = [] → t.stream.unsettled = 0 → t.finishes.length = 1

theorem Inv.allSettled {s : Stream B} (h : Inv s) (hwriting : s.writing = false) : AllSettled s := by
  have hbusy := h.busy
  rw [hwriting] at hbusy
  simp only [Bool.false_eq_true, if_false] at hbusy
  refine ⟨?_, by omega, fun hmem => ?_⟩
  · rw [h.order, h.idle hwriting, List.append_nil]
  · have hpos : 0 < s.stack.countP Frame.busy := List.countP_pos_iff.mpr ⟨_, hmem, rfl⟩
    omega

theorem Inv.idle_of_rest {s : Stream B} (h : Inv s) (hstack : s.stack = []) (hunsettled : s.unsettled = 0) :
    s.writing = false := by
  have hbusy := h.busy
  by_contra hne
  rw [Bool.not_eq_false] at hne
  rw [hstack, hunsettled, hne] at hbusy
  simp at hbusy

/-! ## Emissions to come -/

/-- How often `finish` will be emitted, after `end`: by each `drain` that runs, and by the one that the
writes will come to. -/
def toCome (s : Stream B) : Nat := s.stack.count .drain + if s.writing then 1 else 0

theorem toCome_next (s : Stream B) (hwriting : s.writing = true) : toCome s.next = toCome s := by
  unfold Stream.next toCome
  cases s.queue with
  | nil => simp [hwriting]
  | cons b queue => simp [Stream.startWrite, hwriting]

theorem toCome_settled (s : Stream B) (hwriting : s.writing = true) (rejected : Bool) :
    toCome (s.settled rejected) = toCome s := by
  unfold Stream.settled
  split_ifs
  · simp [toCome]
  · exact toCome_next s hwriting

theorem ended_next (s : Stream B) : s.next.ended = s.ended := by
  unfold Stream.next
  cases s.queue <;> rfl

theorem ended_settled (s : Stream B) (rejected : Bool) : (s.settled rejected).ended = s.ended := by
  unfold Stream.settled
  split_ifs
  · rfl
  · exact ended_next s

/-- Nothing is written any more, and `end` is not called. -/
def Act.quiet : Act B → Prop
  | .write _ => False
  | .finishing => False
  | _ => True

/-- What is emitted was to come. -/
theorem toCome_step {s s' : Stream B} {a : Act B} (h : Inv s) (hended : s.ended = true) (ha : a.quiet)
    (hstep : step s a = some s') :
    s'.ended = true ∧ toCome s' + (if emitsFinish s a then 1 else 0) = toCome s := by
  cases a with
  | write b => exact absurd ha id
  | finishing => exact absurd ha id
  | settle rejected =>
    simp only [step] at hstep
    split_ifs at hstep with hpos
    obtain rfl := Option.some.inj hstep
    have hwriting := h.writing_of_busy (by omega)
    refine ⟨(ended_settled _ rejected).trans hended, ?_⟩
    exact toCome_settled { s with unsettled := s.unsettled - 1 } hwriting rejected
  | returns outcome =>
    unfold step at hstep
    simp only at hstep
    split at hstep
    · contradiction
    · rename_i stack hstack
      obtain ⟨hwriting, -⟩ := h.of_top_busy hstack rfl
      have htop : toCome s = toCome { s with stack := stack } := by simp [toCome, hstack]
      have hnone : emitsFinish s (.returns outcome) = false := by simp [emitsFinish, hstack]
      rw [htop, hnone]
      cases outcome with
      | none =>
        obtain rfl := Option.some.inj hstep
        exact ⟨hended, rfl⟩
      | some rejected =>
        obtain rfl := Option.some.inj hstep
        refine ⟨(ended_settled _ rejected).trans hended, ?_⟩
        exact toCome_settled { s with stack := stack } hwriting rejected
    · rename_i stack hstack
      obtain ⟨hwriting, -⟩ := h.of_top_busy hstack rfl
      have htop : toCome s = toCome { s with stack := stack } := by simp [toCome, hstack]
      have hnone : emitsFinish s (.returns outcome) = false := by simp [emitsFinish, hstack]
      rw [htop, hnone]
      obtain rfl := Option.some.inj hstep
      refine ⟨(ended_next _).trans hended, ?_⟩
      exact toCome_next { s with stack := stack } hwriting
    · rename_i stack hstack
      -- the `drain` is over, and `finish` is emitted
      have hemits : emitsFinish s (.returns outcome) = true := by simp [emitsFinish, hstack, hended]
      rw [hemits]
      obtain rfl := Option.some.inj hstep
      refine ⟨hended, ?_⟩
      simp only [toCome, hstack, hended, if_true, List.count_cons_self,
        List.count_cons_of_ne (show Frame.finish ≠ .drain by decide)]
      omega
    · rename_i stack hstack
      have hnone : emitsFinish s (.returns outcome) = false := by simp [emitsFinish, hstack]
      rw [hnone]
      obtain rfl := Option.some.inj hstep
      exact ⟨hended, by simp [toCome, hstack]⟩

/-! ## Runs with one end -/

theorem Trace.step_eq {t t' : Trace B} {a : Act B} (h : Trace.step t a = some t') :
    ∃ s', Writable.step t.stream a = some s' ∧
      t' = ⟨s', if emitsFinish t.stream a then t.finishes ++ [s'] else t.finishes⟩ := by
  obtain ⟨s', hstep, heq⟩ := Option.map_eq_some_iff.mp h
  exact ⟨s', hstep, heq.symm⟩

/-- A trace is a run of the stream. -/
theorem Trace.run_stream {as : List (Act B)} {t t' : Trace B} (h : run Trace.step t as = some t') :
    run Writable.step t.stream as = some t'.stream := by
  induction as generalizing t with
  | nil =>
    obtain rfl := Option.some.inj h
    rfl
  | cons a as ih =>
    obtain ⟨t₁, hstep, hrest⟩ := run_cons h
    obtain ⟨s₁, hs₁, rfl⟩ := Trace.step_eq hstep
    have hrun := ih hrest
    simp only [run, hs₁, Option.bind_some]
    exact hrun

theorem ended_step {s s' : Stream B} {a : Act B} (ha : a ≠ .finishing) (hstep : step s a = some s') :
    s'.ended = s.ended := by
  cases a with
  | write b =>
    obtain rfl := Option.some.inj hstep
    unfold Stream.write
    simp only
    split_ifs <;> rfl
  | finishing => exact absurd rfl ha
  | settle rejected =>
    simp only [step] at hstep
    split_ifs at hstep
    obtain rfl := Option.some.inj hstep
    exact ended_settled _ rejected
  | returns outcome =>
    unfold step at hstep
    simp only at hstep
    split at hstep
    · contradiction
    · cases outcome with
      | none =>
        obtain rfl := Option.some.inj hstep
        rfl
      | some rejected =>
        obtain rfl := Option.some.inj hstep
        exact ended_settled _ rejected
    · obtain rfl := Option.some.inj hstep
      exact ended_next _
    · obtain rfl := Option.some.inj hstep
      rfl
    · obtain rfl := Option.some.inj hstep
      rfl

/-- A stream on which `end` was not called. -/
structure Open (t : Trace B) : Prop where
  inv : Inv t.stream
  ended : t.stream.ended = false
  finishes : t.finishes = []

theorem open_step (t : Trace B) (a : Act B) (t' : Trace B) (h : Open t) (ha : a ≠ .finishing)
    (hstep : Trace.step t a = some t') : Open t' := by
  obtain ⟨s', hs', rfl⟩ := Trace.step_eq hstep
  have hnone : emitsFinish t.stream a = false := by
    cases a with
    | finishing => exact absurd rfl ha
    | returns outcome =>
      simp only [emitsFinish, h.ended]
      split <;> rfl
    | _ => rfl
  refine ⟨inv_step _ _ _ h.inv hs', ?_, ?_⟩
  · exact (ended_step ha hs').trans h.ended
  · simp only [hnone, Bool.false_eq_true, if_false]
    exact h.finishes

/-- `end` was called inside of `k` handlers of `drain`. -/
structure Ending (k : Nat) (t : Trace B) : Prop where
  inv : Inv t.stream
  ended : t.stream.ended = true
  count : t.finishes.length + toCome t.stream = k + 1
  last : k = 0 → ∀ s ∈ t.finishes, s.ended = true ∧ AllSettled s

theorem toCome_zero {s : Stream B} (h : toCome s = 0) : s.writing = false := by
  unfold toCome at h
  by_contra hne
  rw [if_pos (Bool.not_eq_false _ ▸ hne)] at h
  omega

theorem ending_step (k : Nat) (t : Trace B) (a : Act B) (t' : Trace B) (h : Ending k t) (ha : a.quiet)
    (hstep : Trace.step t a = some t') : Ending k t' := by
  obtain ⟨s', hs', rfl⟩ := Trace.step_eq hstep
  obtain ⟨hended, hcome⟩ := toCome_step h.inv h.ended ha hs'
  have hinv := inv_step _ _ _ h.inv hs'
  have hcount := h.count
  cases hemits : emitsFinish t.stream a with
  | false =>
    rw [hemits] at hcome
    exact ⟨hinv, hended, by rw [← hcome] at hcount; exact hcount, h.last⟩
  | true =>
    rw [hemits] at hcome
    simp only [if_true] at hcome
    refine ⟨hinv, hended, ?_, fun hk s hs => ?_⟩
    · simp only [if_true, List.length_append, List.length_singleton]
      omega
    · -- nothing is to come behind the only one
      simp only [if_true, List.mem_append, List.mem_singleton] at hs
      rcases hs with hs | rfl
      · exact h.last hk s hs
      · exact ⟨hended, hinv.allSettled (toCome_zero (by omega))⟩

theorem ending_finishing {t : Trace B} {t' : Trace B} (h : Open t)
    (hstep : Trace.step t .finishing = some t') : Ending (t.stream.stack.count .drain) t' := by
  obtain ⟨s', hs', rfl⟩ := Trace.step_eq hstep
  have hinv := inv_step _ _ _ h.inv hs'
  obtain rfl := Option.some.inj hs'
  cases hwriting : t.stream.writing with
  | true =>
    have hsame : t.stream.finishing = { t.stream with ended := true } := by
      simp [Stream.finishing, hwriting]
    rw [hsame] at hinv ⊢
    refine ⟨hinv, rfl, ?_, ?_⟩
    · simp [emitsFinish, hwriting, h.finishes, toCome]
    · simp [emitsFinish, hwriting, h.finishes]
  | false =>
    have hsame : t.stream.finishing = { t.stream with ended := true, stack := .finish :: t.stream.stack } := by
      simp [Stream.finishing, hwriting]
    have hemits : emitsFinish t.stream .finishing = true := by simp [emitsFinish, hwriting]
    rw [hsame] at hinv
    rw [hsame, hemits, h.finishes]
    refine ⟨hinv, rfl, ?_, fun _ s hs => ?_⟩
    · simp [hwriting, toCome]
      omega
    · simp only [if_true, List.nil_append, List.mem_singleton] at hs
      rw [hs]
      exact ⟨rfl, hinv.allSettled hwriting⟩

theorem Ending.finished {t : Trace B} (h : Ending 0 t) : Finished t := by
  have hcount := h.count
  refine ⟨by omega, h.last rfl, fun hstack hunsettled => ?_⟩
  have hidle := h.inv.idle_of_rest hstack hunsettled
  simp only [toCome, hstack, hidle, List.count_nil, Bool.false_eq_true, if_false] at hcount
  omega

/-- At the end, `finish` has been emitted once more for each handler of `drain` around `end`. -/
theorem Ending.length_rest {k : Nat} {t : Trace B} (h : Ending k t) (hstack : t.stream.stack = [])
    (hunsettled : t.stream.unsettled = 0) : t.finishes.length = k + 1 := by
  have hidle := h.inv.idle_of_rest hstack hunsettled
  have hcount := h.count
  simp only [toCome, hstack, hidle, List.count_nil, Bool.false_eq_true, if_false] at hcount
  omega

/-- When `end` is called once and nothing is written after it, `finish` is emitted once and last
unless a handler of `drain` runs when `end` is called, and in every run that has come to its end it is
so only then. -/
theorem finished_iff (before after : List (Act B)) (s : Stream B) (t : Trace B)
    (hbefore : ∀ a ∈ before, a ≠ .finishing) (hafter : ∀ a ∈ after, a.quiet)
    (hs : run step Stream.create before = some s)
    (ht : run Trace.step Trace.create (before ++ .finishing :: after) = some t) :
    (.drain ∉ s.stack → Finished t) ∧
      (t.stream.stack = [] → t.stream.unsettled = 0 → (Finished t ↔ .drain ∉ s.stack)) := by
  rw [run_append] at ht
  obtain ⟨t₁, ht₁, hrest⟩ := Option.bind_eq_some_iff.mp ht
  obtain ⟨t₂, hend, hquiet⟩ := run_cons hrest
  have hstream : t₁.stream = s := Option.some.inj ((Trace.run_stream ht₁).symm.trans hs)
  have hopen : Open t₁ :=
    invariant_of_meets open_step (meets_of_forall hbefore _) ht₁ ⟨inv_create, rfl, rfl⟩
  have hending : Ending (s.stack.count .drain) t := by
    rw [← hstream]
    exact invariant_of_meets (ending_step _) (meets_of_forall hafter _) hquiet (ending_finishing hopen hend)
  have hfinished : .drain ∉ s.stack → Finished t := by
    intro hdrain
    rw [List.count_eq_zero_of_not_mem hdrain] at hending
    exact hending.finished
  refine ⟨hfinished, fun hstack hunsettled => ⟨fun h => ?_, hfinished⟩⟩
  have hlength := hending.length_rest hstack hunsettled
  have honce := h.once
  exact List.count_eq_zero.mp (by omega)

/-- The stream is ended while a write is pending. -/
def endPending : List (Act Nat) :=
  [.write 1, .returns none, .finishing, .settle false, .returns none, .returns none]

theorem endPending_finished :
    (run Trace.step Trace.create endPending).isSome = true ∧
      ∀ t, run Trace.step Trace.create endPending = some t → Finished t := by
  refine ⟨by decide, fun t ht => ?_⟩
  exact (finished_iff [.write 1, .returns none] [.settle false, .returns none, .returns none]
    _ t (by simp) (by simp [Act.quiet]) rfl ht).1 (by decide)

/-- The stream is ended by a handler of `drain` that has just written. -/
def endInDrain : List (Act Nat) :=
  [.write 1, .returns none, .settle false, .write 2, .returns none, .finishing, .returns none,
    .returns none, .settle false, .returns none, .returns none]

/-- `finish` is emitted while the second write is unsettled, and once more after it. -/
theorem endInDrain_twice :
    (run Trace.step Trace.create endInDrain).map (fun t => (t.stream.stack, t.finishes.map Stream.unsettled))
        = some ([], [1, 0]) ∧
      ∀ t, run Trace.step Trace.create endInDrain = some t → ¬Finished t := by
  refine ⟨by decide, fun t ht h => ?_⟩
  obtain rfl := Option.some.inj ht
  exact absurd h.once (by decide)

end Nodeoze.Event.Writable
