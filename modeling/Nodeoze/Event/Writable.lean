import Nodeoze.Lib.Runs
import Nodeoze.Event.Promise

/-!
# Writable streams

`stream::writable` hands buffers to `really_write` one at a time: what is written meanwhile waits in a
queue, and when the promise of a write is settled the next buffer is taken from it.  The promise may
be settled at once or later; in between, and inside of the handlers of `error`, `drain` and `finish`,
more may be written.

`really_write` and the handlers are code of the user: while one of them runs it is on the stack, and
what it does are steps of their own.
-/

namespace Nodeoze.Event.Writable

open Runs

variable {B : Type}

/-! ## The promise of a write -/

open Promise in
/-- A promise is settled after `then` and `finally` were registered on it, or before: the callback of
`then` is called, and then `finally`. -/
theorem then_finally_calls {K Err : Type} [Inhabited Err] (f g h : K) (o : Outcome Unit Err) :
    calls true [.then_ f (some g), .finally_ h] o [] = wanted o (.then_ f (some g)) ++ [.finally_ h] ∧
      calls true [] o [.then_ f (some g), .finally_ h]
        = wanted o (.then_ f (some g)) ++ [.finally_ h] := by
  cases o <;> exact ⟨rfl, rfl⟩

/-! ## The stream -/

/-- Code of the user that runs. -/
inductive Frame
  | reallyWrite
  | error
  | drain
  | finish
  deriving DecidableEq, Repr

/-- `stream::writable`, the code that runs and the promises that are not settled.  `written` records
the calls of `write`, `called` those of `really_write`. -/
structure Stream (B : Type) where
  writing : Bool
  queue : List B
  ended : Bool
  stack : List Frame
  unsettled : Nat
  written : List B
  called : List B

namespace Stream

def create : Stream B := ⟨false, [], false, [], 0, [], []⟩

/-- `start_write`, up to the call of `really_write`. -/
def startWrite (s : Stream B) (b : B) : Stream B :=
  { s with writing := true, called := s.called ++ [b], stack := .reallyWrite :: s.stack }

/-- `write`; the flag says that few buffers wait.  Its callback becomes one of the handlers of
`drain`. -/
def write (s : Stream B) (b : B) : Stream B × Bool :=
  let s := { s with written := s.written ++ [b] }
  if !s.writing then (s.startWrite b, true)
  else
    let s := { s with queue := s.queue ++ [b] }
    (s, decide (s.queue.length ≤ 5))

/-- The callback of `finally`. -/
def next (s : Stream B) : Stream B :=
  match s.queue with
  | b :: queue => { s with queue := queue }.startWrite b
  | [] => { s with writing := false, stack := .drain :: s.stack }

/-- The promise of a write is settled: the handlers of `error`, if it is rejected, come first. -/
def settled (s : Stream B) (rejected : Bool) : Stream B :=
  if rejected then { s with stack := .error :: s.stack } else s.next

/-- `end` -/
def finishing (s : Stream B) : Stream B :=
  let s := { s with ended := true }
  if !s.writing then { s with stack := .finish :: s.stack } else s

theorem write_of_writing {s : Stream B} (h : s.writing = true) (b : B) :
    (s.write b).1 = { s with written := s.written ++ [b], queue := s.queue ++ [b] } := by
  simp [write, h]

theorem write_of_idle {s : Stream B} (h : s.writing = false) (b : B) :
    (s.write b).1 = { s with
      written := s.written ++ [b]
      writing := true
      called := s.called ++ [b]
      stack := .reallyWrite :: s.stack } := by
  simp [write, startWrite, h]

theorem next_of_nil {s : Stream B} (h : s.queue = []) :
    s.next = { s with writing := false, stack := .drain :: s.stack } := by
  unfold next
  split
  · rename_i heq
    exact absurd (h.symm.trans heq) (by simp)
  · rfl

theorem next_of_cons {s : Stream B} {b : B} {queue : List B} (h : s.queue = b :: queue) :
    s.next = { s with
      queue := queue
      writing := true
      called := s.called ++ [b]
      stack := .reallyWrite :: s.stack } := by
  unfold next
  rw [h]
  rfl

theorem finishing_of_writing {s : Stream B} (h : s.writing = true) : s.finishing = { s with ended := true } := by
  simp [finishing, h]

theorem finishing_of_idle {s : Stream B} (h : s.writing = false) :
    s.finishing = { s with ended := true, stack := .finish :: s.stack } := by
  simp [finishing, h]

end Stream

/-- What the code around a stream does: it writes, it ends the stream, it settles a promise; and
`really_write` returns, with a promise that is settled (and rejected) or not, as the handlers do. -/
inductive Act (B : Type)
  | write (b : B)
  | finishing
  | settle (rejected : Bool)
  | returns (outcome : Option Bool)

def step (s : Stream B) : Act B → Option (Stream B)
  | .write b => some (s.write b).1
  | .finishing => some s.finishing
  | .settle rejected =>
    if 0 < s.unsettled then some ({ s with unsettled := s.unsettled - 1 }.settled rejected) else none
  | .returns outcome =>
    match s.stack with
    | [] => none
    | .reallyWrite :: stack =>
      match outcome with
      | none => some { s with stack := stack, unsettled := s.unsettled + 1 }
      | some rejected => some ({ s with stack := stack }.settled rejected)
    | .error :: stack => some { s with stack := stack }.next
    | .drain :: stack =>
      some { s with stack := if s.ended then .finish :: stack else stack }
    | .finish :: stack => some { s with stack := stack }

/-! ## What a run keeps -/

/-- A write that is not settled, or whose error is being told. -/
def Frame.busy : Frame → Bool
  | .reallyWrite => true
  | .error => true
  | _ => false

theorem quiet_of_free {stack : List Frame} (h : stack.countP Frame.busy = 0) : .reallyWrite ∉ stack := by
  intro hmem
  exact List.countP_eq_zero.mp h _ hmem rfl

/-- The buffers are handed on in order and once each, one write at a time, and when nothing is
written nothing waits. -/
structure Orderly (s : Stream B) : Prop where
  order : s.written = s.called ++ s.queue
  alone : s.stack.count .reallyWrite + s.unsettled ≤ 1
  idle : s.writing = false → s.queue = []
  rest : s.stack = [] → s.unsettled = 0 → s.called = s.written

structure Inv (s : Stream B) : Prop where
  order : s.written = s.called ++ s.queue
  busy : s.stack.countP Frame.busy + s.unsettled = if s.writing then 1 else 0
  idle : s.writing = false → s.queue = []

theorem inv_create : Inv (Stream.create : Stream B) := ⟨rfl, rfl, fun _ => rfl⟩

theorem Inv.orderly {s : Stream B} (h : Inv s) : Orderly s where
  order := h.order
  alone := by
    have hbusy := h.busy
    have hle : s.stack.count .reallyWrite ≤ s.stack.countP Frame.busy := by
      apply List.countP_mono_left
      intro f _ hf
      rw [beq_iff_eq.mp hf]
      rfl
    split_ifs at hbusy <;> omega
  idle := h.idle
  rest := by
    intro hstack hunsettled
    have hbusy := h.busy
    rw [hstack, hunsettled] at hbusy
    have hidle : s.writing = false := by
      by_contra hne
      rw [Bool.not_eq_false] at hne
      simp [hne] at hbusy
    rw [h.order, h.idle hidle, List.append_nil]

/-- The next buffer, when the write that kept the stream busy is over. -/
theorem inv_next {s : Stream B} (horder : s.written = s.called ++ s.queue)
    (hfree : s.stack.countP Frame.busy + s.unsettled = 0) : Inv s.next := by
  unfold Stream.next
  cases hqueue : s.queue with
  | nil =>
    refine ⟨by rw [horder, hqueue], ?_, fun _ => rfl⟩
    simpa [Frame.busy] using hfree
  | cons b queue =>
    refine ⟨by simp [Stream.startWrite, horder, hqueue], ?_, fun h => by simp [Stream.startWrite] at h⟩
    simp only [Stream.startWrite, if_true]
    rw [List.countP_cons_of_pos rfl]
    omega

theorem inv_settled {s : Stream B} (horder : s.written = s.called ++ s.queue)
    (hwriting : s.writing = true) (hfree : s.stack.countP Frame.busy + s.unsettled = 0)
    (rejected : Bool) : Inv (s.settled rejected) := by
  unfold Stream.settled
  split_ifs
  · refine ⟨horder, ?_, fun h => by simp [hwriting] at h⟩
    simp only [hwriting, if_true]
    rw [List.countP_cons_of_pos rfl]
    omega
  · exact inv_next horder hfree

theorem inv_write {s : Stream B} (h : Inv s) (b : B) : Inv (s.write b).1 := by
  unfold Stream.write
  by_cases hwriting : s.writing = true
  · -- the buffer joins the queue
    simp only [hwriting, Bool.not_true, Bool.false_eq_true, if_false]
    refine ⟨by simp [h.order], ?_, fun hne => ?_⟩
    · simpa [hwriting] using h.busy
    · contradiction
  · rw [Bool.not_eq_true] at hwriting
    have hbusy := h.busy
    simp only [hwriting, Bool.false_eq_true, if_false] at hbusy
    simp only [hwriting, Bool.not_false, if_true]
    refine ⟨?_, ?_, fun hne => by simp [Stream.startWrite] at hne⟩
    · simp [Stream.startWrite, h.order, h.idle hwriting]
    · simp only [Stream.startWrite, if_true]
      rw [List.countP_cons_of_pos rfl]
      omega

theorem Inv.writing_of_busy {s : Stream B} (h : Inv s)
    (hbusy : 0 < s.stack.countP Frame.busy + s.unsettled) : s.writing = true := by
  by_contra hne
  have := h.busy
  rw [if_neg hne] at this
  omega

/-- The write that is on the stack is the only one. -/
theorem Inv.of_top_busy {s : Stream B} (h : Inv s) {frame : Frame} {stack : List Frame}
    (hstack : s.stack = frame :: stack) (hframe : frame.busy = true) :
    s.writing = true ∧ stack.countP Frame.busy + s.unsettled = 0 := by
  have hcount : s.stack.countP Frame.busy = stack.countP Frame.busy + 1 := by
    rw [hstack, List.countP_cons_of_pos hframe]
  have hwriting := h.writing_of_busy (by omega)
  have hbusy := h.busy
  rw [if_pos hwriting] at hbusy
  exact ⟨hwriting, by omega⟩

/-- The handlers of `drain` and `finish` keep no write. -/
theorem Inv.of_top_free {s : Stream B} (h : Inv s) {frame : Frame} {stack : List Frame}
    (hstack : s.stack = frame :: stack) (hframe : frame.busy = false) :
    Inv { s with stack := stack } := by
  refine ⟨h.order, ?_, h.idle⟩
  have hbusy := h.busy
  rwa [hstack, List.countP_cons_of_neg (by simp [hframe])] at hbusy

theorem Inv.push_finish {s : Stream B} (h : Inv s) : Inv { s with stack := .finish :: s.stack } :=
  ⟨h.order, by simpa [Frame.busy] using h.busy, h.idle⟩

theorem inv_finishing {s : Stream B} (h : Inv s) : Inv s.finishing := by
  have hended : Inv { s with ended := true } := ⟨h.order, h.busy, h.idle⟩
  unfold Stream.finishing
  simp only
  split_ifs
  · exact hended.push_finish
  · exact hended

theorem inv_returns {s s' : Stream B} (h : Inv s) (outcome : Option Bool)
    (hstep : step s (.returns outcome) = some s') : Inv s' := by
  unfold step at hstep
  simp only at hstep
  split at hstep
  · contradiction
  · rename_i stack hstack
    obtain ⟨hwriting, hfree⟩ := h.of_top_busy hstack rfl
    cases outcome with
    | none =>
      -- the promise takes the place of the call
      obtain rfl := Option.some.inj hstep
      refine ⟨h.order, ?_, h.idle⟩
      simp only [hwriting, if_true]
      omega
    | some rejected =>
      obtain rfl := Option.some.inj hstep
      apply inv_settled
      · exact h.order
      · exact hwriting
      · exact hfree
  · rename_i stack hstack
    obtain ⟨-, hfree⟩ := h.of_top_busy hstack rfl
    obtain rfl := Option.some.inj hstep
    apply inv_next
    · exact h.order
    · exact hfree
  · rename_i stack hstack
    obtain rfl := Option.some.inj hstep
    have hrest := h.of_top_free hstack rfl
    split_ifs
    · exact hrest.push_finish
    · exact hrest
  · rename_i stack hstack
    obtain rfl := Option.some.inj hstep
    exact h.of_top_free hstack rfl

theorem inv_step (s : Stream B) (a : Act B) (s' : Stream B) (h : Inv s) (hstep : step s a = some s') :
    Inv s' := by
  cases a with
  | write b =>
    obtain rfl := Option.some.inj hstep
    exact inv_write h b
  | finishing =>
    obtain rfl := Option.some.inj hstep
    exact inv_finishing h
  | settle rejected =>
    simp only [step] at hstep
    split_ifs at hstep with hpos
    obtain rfl := Option.some.inj hstep
    have hbusy := h.busy
    have hwriting := h.writing_of_busy (by omega)
    rw [if_pos hwriting] at hbusy
    apply inv_settled
    · exact h.order
    · exact hwriting
    · simp only
      omega
  | returns outcome => exact inv_returns h outcome hstep

/-- Whatever is written, from wherever, and however the promises of the writes are settled: the
buffers are handed to `really_write` in order, each once and one at a time. -/
theorem writes_orderly (as : List (Act B)) (s : Stream B) (h : run step Stream.create as = some s) :
    Orderly s := (invariant inv_step h inv_create).orderly

/-- Five writes: one is made while the first is pending, one by the handlers of its error, one by
those of `drain`, and one inside of `really_write`. -/
def fiveWrites : List (Act Nat) :=
  [.write 1, .returns none, .write 2, .settle true, .write 3, .returns none, .returns (some false),
    .returns (some true), .returns none, .write 4, .write 5, .returns (some false),
    .returns none, .settle false, .finishing, .returns none, .returns none, .returns none,
    .returns none, .returns none]

theorem fiveWrites_orderly :
    (run step Stream.create fiveWrites).map (fun s => (s.called, s.queue, s.stack, s.unsettled))
        = some ([1, 2, 3, 4, 5], [], [], 0) ∧
      ∀ s, run step Stream.create fiveWrites = some s → Orderly s :=
  ⟨by decide, fun s h => writes_orderly fiveWrites s h⟩

end Nodeoze.Event.Writable
