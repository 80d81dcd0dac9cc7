import Mathlib.Data.List.Perm.Basic
import Nodeoze.Event.Writable

/-!
# Pipes

`readable::pipe` writes what a readable stream pushes to writable streams.  A write that finds many
buffers waiting pauses the source, and the next `drain` of that stream lets it read again.

The source is told to read when its first listener of `data` is registered, which is before `pipe`
registers the listener of `end`; and it is told to pause before the listener of `drain` is registered.
`really_read`, `really_pause`, the handlers and `really_write` are code of the user, as in `Writable`:
they are on a stack, and what they do are steps of their own.
-/

namespace Nodeoze.Event.Pipe

open Runs Writable

variable {D B : Type}

/-! ## The streams -/

/-- Code that has not returned.  A `pause` goes on with `once` on the stream that was full.  The frame
of a writable stream is the one on top of its own stack, with the listeners of `drain` still to call. -/
inductive Frame (D B : Type)
  | emit (b : B) (rest : List (Option D))
  | handler
  | ending (rest : List D)
  | read
  | pause (full : Option D)
  | pipe (d : D)
  | dest (d : D) (resume : Nat)
  deriving DecidableEq

/-- A readable stream and the streams it is piped to.  `data` are the listeners of `data`, those of the
user without a stream; `waiting` counts the listeners of `drain` that read again.  `reading` says whether
`really_read` or `really_pause` was called last.  A write is recorded with whether the pipe made it, and
`due` what was pushed for the listeners of a stream. -/
structure State (D B : Type) where
  dests : D → Stream (Bool × B)
  waiting : D → Nat
  data : List (Option D)
  ends : List D
  reading : Bool
  stack : List (Frame D B)
  due : D → List B

variable [DecidableEq D]

namespace State

def create : State D B := ⟨fun _ => .create, fun _ => 0, [], [], false, [], fun _ => []⟩

/-- A writable stream has changed.  If it has called code of the user, that is on the stack; to emit
`drain` takes the listeners for once. -/
def put (s : State D B) (d : D) (t : Stream (Bool × B)) (depth : Nat) : State D B :=
  let s := { s with dests := Function.update s.dests d t }
  if t.stack.length ≤ depth then s
  else if t.stack.head? = some .drain then
    { s with waiting := Function.update s.waiting d 0, stack := .dest d (s.waiting d) :: s.stack }
  else { s with stack := .dest d 0 :: s.stack }

/-- `write`, by the listener of `data` or by someone else, with what it returns. -/
def write (s : State D B) (d : D) (piped : Bool) (b : B) : State D B × Bool :=
  let w := (s.dests d).write (piped, b)
  (s.put d w.1 (s.dests d).stack.length, w.2)

/-- The listener of `data` that `pipe` registers, up to the call of `really_pause`. -/
def deliver (s : State D B) (d : D) (b : B) : State D B :=
  let w := s.write d true b
  if w.2 then w.1 else { w.1 with reading := false, stack := .pause (some d) :: w.1.stack }

def finishing (s : State D B) (d : D) : State D B :=
  s.put d (s.dests d).finishing (s.dests d).stack.length

/-- The listener of `newListener`. -/
def newListener (s : State D B) : State D B :=
  if s.data.length = 1 then { s with reading := true, stack := .read :: s.stack } else s

/-- The listener of `removeListener`. -/
def removeListener (s : State D B) : State D B :=
  if s.data = [] then { s with reading := false, stack := .pause none :: s.stack } else s

/-- `pipe`, up to the listener of `data`. -/
def pipe (s : State D B) (d : D) : State D B :=
  { s with data := s.data ++ [some d], stack := .pipe d :: s.stack }.newListener

def on (s : State D B) : State D B := { s with data := s.data ++ [none] }.newListener

/-- A listener of the user is removed. -/
def off (s : State D B) (n : Nat) : State D B :=
  { s with data := if s.data[n]? = some none then s.data.eraseIdx n else s.data }.removeListener

/-- `push`; the listeners to call are those of now. -/
def push (s : State D B) (b : B) : State D B :=
  { s with
    stack := .emit b s.data :: s.stack
    due := fun d => s.due d ++ List.replicate (s.data.count (some d)) b }

/-- The innermost emit calls its next handler, or `pipe` goes on. -/
def next (s : State D B) : Option (State D B) :=
  match s.stack with
  | .emit b (some d :: rest) :: stack => some ({ s with stack := .emit b rest :: stack }.deliver d b)
  | .emit b (none :: rest) :: stack => some { s with stack := .handler :: .emit b rest :: stack }
  | .emit _ [] :: stack => some { s with stack := stack }
  | .ending (d :: rest) :: stack => some ({ s with stack := .ending rest :: stack }.finishing d)
  | .ending [] :: stack => some { s with stack := stack }
  | .pipe d :: stack => some { s with stack := stack, ends := s.ends ++ [d] }
  | .dest d (resume + 1) :: stack =>
    some { s with stack := .read :: .dest d resume :: stack, reading := true }
  | _ => none

/-- The innermost code of the user returns. -/
def returns (s : State D B) (outcome : Option Bool) : Option (State D B) :=
  match s.stack with
  | .handler :: stack => some { s with stack := stack }
  | .read :: stack => some { s with stack := stack }
  | .pause none :: stack => some { s with stack := stack }
  | .pause (some d) :: stack =>
    some { s with stack := stack, waiting := Function.update s.waiting d (s.waiting d + 1) }
  | .dest d 0 :: stack =>
    (Writable.step (s.dests d) (.returns outcome)).map fun t =>
      { s with stack := stack }.put d t ((s.dests d).stack.length - 1)
  | _ => none

end State

/-- What the code around the streams does: it pipes, adds and removes listeners of `data`, pushes, and
emits `end`; it writes to the streams, ends them and settles their promises; and what has been called
goes on or returns. -/
inductive Act (D B : Type)
  | pipe (d : D)
  | on
  | off (n : Nat)
  | push (b : B)
  | ending
  | write (d : D) (b : B)
  | finishing (d : D)
  | settle (d : D) (rejected : Bool)
  | next
  | returns (outcome : Option Bool)

def step (s : State D B) : Act D B → Option (State D B)
  | .pipe d => some (s.pipe d)
  | .on => some s.on
  | .off n => some (s.off n)
  | .push b => some (s.push b)
  | .ending => some { s with stack := .ending s.ends :: s.stack }
  | .write d b => some (s.write d false b).1
  | .finishing d => some (s.finishing d)
  | .settle d rejected =>
    (Writable.step (s.dests d) (.settle rejected)).map fun t => s.put d t (s.dests d).stack.length
  | .next => s.next
  | .returns outcome => s.returns outcome

/-! ## What a writable stream does -/

section

/-- At most one frame is put above `depth`; a stream that stops writing emits `drain`, and nothing waits
then. -/
structure Moves (depth : Nat) (t t' : Stream B) : Prop where
  grows : t'.stack.length = depth ∨ t'.stack.length = depth + 1
  drained : t.writing = true → t'.writing = false →
    t'.stack.length = depth + 1 ∧ t'.stack.head? = some .drain
  empty : t'.stack.length = depth + 1 → t'.stack.head? = some .drain → t'.queue = []

/-- Nothing is written, and no more waits than before. -/
structure Quiet (t t' : Stream B) : Prop where
  written : t'.written = t.written
  queue : t'.queue.length ≤ t.queue.length

theorem moves_write (t : Stream B) (b : B) : Moves t.stack.length t (t.write b).1 := by
  unfold Stream.write
  cases hwriting : t.writing with
  | false =>
    simp only [Stream.startWrite, Bool.not_false, if_true]
    refine ⟨.inr (by simp), fun _ h => ?_, fun _ h => ?_⟩
    · cases h
    · simp at h
  | true =>
    simp only [Bool.not_true, Bool.false_eq_true, if_false]
    refine ⟨.inl rfl, fun _ h => ?_, fun h => ?_⟩
    · cases h
    · simp at h

theorem moves_next (t : Stream B) : Moves t.stack.length t t.next ∧ Quiet t t.next := by
  unfold Stream.next
  cases hqueue : t.queue with
  | nil => exact ⟨⟨.inr (by simp), fun _ _ => by simp, fun _ _ => rfl⟩, rfl, by simp⟩
  | cons b queue =>
    simp only [Stream.startWrite]
    refine ⟨⟨.inr (by simp), fun _ h => ?_, fun _ h => ?_⟩, rfl, by simp [hqueue]⟩
    · cases h
    · simp at h

theorem moves_settled (t : Stream B) (rejected : Bool) :
    Moves t.stack.length t (t.settled rejected) ∧ Quiet t (t.settled rejected) := by
  unfold Stream.settled
  cases rejected with
  | false => exact moves_next t
  | true =>
    simp only [if_true]
    refine ⟨⟨.inr (by simp), fun h h' => ?_, fun _ h => ?_⟩, rfl, Nat.le_refl _⟩
    · rw [h] at h'
      cases h'
    · simp at h

theorem moves_finishing (t : Stream B) :
    Moves t.stack.length t t.finishing ∧ Quiet t t.finishing := by
  unfold Stream.finishing
  cases hwriting : t.writing with
  | false =>
    simp only [Bool.not_false, if_true]
    refine ⟨⟨.inr (by simp), fun h _ => ?_, fun _ h => ?_⟩, rfl, Nat.le_refl _⟩
    · rw [hwriting] at h
      cases h
    · simp at h
  | true =>
    simp only [Bool.not_true, Bool.false_eq_true, if_false]
    refine ⟨⟨.inl rfl, fun _ h => ?_, fun h => ?_⟩, rfl, Nat.le_refl _⟩
    · cases h
    · simp at h

theorem moves_settle {t t' : Stream B} {rejected : Bool}
    (h : Writable.step t (.settle rejected) = some t') : Moves t.stack.length t t' ∧ Quiet t t' := by
  simp only [Writable.step] at h
  split_ifs at h
  obtain rfl := Option.some.inj h
  obtain ⟨hmoves, hquiet⟩ := moves_settled { t with unsettled := t.unsettled - 1 } rejected
  exact ⟨⟨hmoves.grows, hmoves.drained, hmoves.empty⟩, hquiet.written, hquiet.queue⟩

theorem moves_returns {t t' : Stream B} {outcome : Option Bool}
    (h : Writable.step t (.returns outcome) = some t') :
    t.stack ≠ [] ∧ Moves (t.stack.length - 1) t t' ∧ Quiet t t' := by
  unfold Writable.step at h
  simp only at h
  split at h
  · contradiction
  · rename_i stack hstack
    rw [hstack]
    refine ⟨List.cons_ne_nil _ _, ?_⟩
    cases outcome with
    | none =>
      obtain rfl := Option.some.inj h
      refine ⟨⟨.inl rfl, fun h h' => ?_, fun h => ?_⟩, rfl, Nat.le_refl _⟩
      · rw [h] at h'
        cases h'
      · simp at h
    | some rejected =>
      obtain rfl := Option.some.inj h
      obtain ⟨hmoves, hquiet⟩ := moves_settled { t with stack := stack } rejected
      exact ⟨⟨hmoves.grows, hmoves.drained, hmoves.empty⟩, hquiet.written, hquiet.queue⟩
  · rename_i stack hstack
    rw [hstack]
    obtain rfl := Option.some.inj h
    obtain ⟨hmoves, hquiet⟩ := moves_next { t with stack := stack }
    exact ⟨List.cons_ne_nil _ _, ⟨hmoves.grows, hmoves.drained, hmoves.empty⟩, hquiet.written, hquiet.queue⟩
  · rename_i stack hstack
    rw [hstack]
    obtain rfl := Option.some.inj h
    refine ⟨List.cons_ne_nil _ _, ⟨?_, fun h h' => ?_, fun h h' => ?_⟩, rfl, Nat.le_refl _⟩
    · split_ifs
      · exact .inr (by simp)
      · exact .inl (by simp)
    · rw [h] at h'
      cases h'
    · split_ifs at h h'
      · simp at h'
      · simp at h
  · rename_i stack hstack
    rw [hstack]
    obtain rfl := Option.some.inj h
    refine ⟨List.cons_ne_nil _ _, ⟨.inl (by simp), fun h h' => ?_, fun h => ?_⟩, rfl, Nat.le_refl _⟩
    · rw [h] at h'
      cases h'
    · simp at h

end

/-! ## Putting a stream back -/

section

variable (s : State D B) (d : D) (t : Stream (Bool × B)) (depth : Nat)

theorem put_cases :
    (t.stack.length ≤ depth ∧ s.put d t depth = { s with dests := Function.update s.dests d t }) ∨
    (depth < t.stack.length ∧ t.stack.head? = some .drain ∧
      s.put d t depth = { s with
        dests := Function.update s.dests d t
        waiting := Function.update s.waiting d 0
        stack := .dest d (s.waiting d) :: s.stack }) ∨
    (depth < t.stack.length ∧ t.stack.head? ≠ some .drain ∧
      s.put d t depth = { s with
        dests := Function.update s.dests d t
        stack := .dest d 0 :: s.stack }) := by
  unfold State.put
  by_cases hle : t.stack.length ≤ depth
  · left
    exact ⟨hle, if_pos hle⟩
  right
  rw [Nat.not_le] at hle
  by_cases hdrain : t.stack.head? = some .drain
  · left
    refine ⟨hle, hdrain, ?_⟩
    simp only [if_neg (Nat.not_le.mpr hle), if_pos hdrain]
  · right
    refine ⟨hle, hdrain, ?_⟩
    simp only [if_neg (Nat.not_le.mpr hle), if_neg hdrain]

@[simp] theorem put_dests : (s.put d t depth).dests = Function.update s.dests d t := by
  rcases put_cases s d t depth with ⟨-, h⟩ | ⟨-, -, h⟩ | ⟨-, -, h⟩ <;> rw [h]

@[simp] theorem put_data : (s.put d t depth).data = s.data := by
  rcases put_cases s d t depth with ⟨-, h⟩ | ⟨-, -, h⟩ | ⟨-, -, h⟩ <;> rw [h]

@[simp] theorem put_reading : (s.put d t depth).reading = s.reading := by
  rcases put_cases s d t depth with ⟨-, h⟩ | ⟨-, -, h⟩ | ⟨-, -, h⟩ <;> rw [h]

@[simp] theorem put_due : (s.put d t depth).due = s.due := by
  rcases put_cases s d t depth with ⟨-, h⟩ | ⟨-, -, h⟩ | ⟨-, -, h⟩ <;> rw [h]

theorem put_stack : (s.put d t depth).stack = s.stack ∨
    ∃ resume, (s.put d t depth).stack = .dest d resume :: s.stack := by
  rcases put_cases s d t depth with ⟨-, h⟩ | ⟨-, -, h⟩ | ⟨-, -, h⟩
  · exact .inl (by rw [h])
  · exact .inr ⟨s.waiting d, by rw [h]⟩
  · exact .inr ⟨0, by rw [h]⟩

end

/-! ## Delivery -/

def Frame.isEmit : Frame D B → Bool
  | .emit _ _ => true
  | _ => false

/-- What an emit has still to write to a stream. -/
def Frame.owed (d : D) : Frame D B → List B
  | .emit b rest => List.replicate (rest.count (some d)) b
  | _ => []

namespace State

variable (s : State D B) (d : D)

def owed : List B := s.stack.flatMap (Frame.owed d)

/-- What the pipe has written to a stream, and what of it has been handed to `really_write`. -/
def written : List B := ((s.dests d).written.filter Prod.fst).map Prod.snd

def called : List B := ((s.dests d).called.filter Prod.fst).map Prod.snd

end State

/-- Nothing is lost or written twice, and nothing is due that was not. -/
def Accounts (s s' : State D B) : Prop :=
  ∀ d, s'.due d = s.due d ∧ s'.written d ++ s'.owed d = s.written d ++ s.owed d

theorem owed_put (s : State D B) (d e : D) (t : Stream (Bool × B)) (depth : Nat) :
    (s.put d t depth).owed e = s.owed e := by
  rcases put_stack s d t depth with h | ⟨resume, h⟩ <;> rw [State.owed, h] <;> rfl

theorem accounts_put (s : State D B) (d : D) {t : Stream (Bool × B)} (depth : Nat)
    (ht : t.written = (s.dests d).written) : Accounts s (s.put d t depth) := by
  intro e
  refine ⟨by rw [put_due], ?_⟩
  rw [owed_put]
  congr 1
  by_cases he : e = d
  · rw [he, State.written, put_dests, Function.update_self, ht, State.written]
  · rw [State.written, put_dests, Function.update_of_ne he, State.written]

/-- The frame on top owes nothing. -/
theorem accounts_pop {s : State D B} {f : Frame D B} {stack : List (Frame D B)}
    (hstack : s.stack = f :: stack) (hf : ∀ d, f.owed d = []) : Accounts s { s with stack := stack } := by
  intro d
  refine ⟨rfl, ?_⟩
  simp only [State.owed, hstack, List.flatMap_cons, hf, List.nil_append]
  rfl

omit [DecidableEq D] in
theorem written_write (t : Stream B) (b : B) : (t.write b).1.written = t.written ++ [b] := by
  unfold Stream.write
  simp only
  split_ifs <;> rfl

/-- What the pipe writes is added to what it has written. -/
theorem State.written_write (s : State D B) (d e : D) (piped : Bool) (b : B) :
    (s.write d piped b).1.written e = s.written e ++ if piped ∧ e = d then [b] else [] := by
  unfold State.write
  rw [State.written, put_dests]
  by_cases he : e = d
  · rw [he, Function.update_self, Pipe.written_write]
    cases piped <;> simp [State.written]
  · rw [Function.update_of_ne he, if_neg fun h => he h.2, List.append_nil]
    rfl

theorem accounts_write (s : State D B) (d : D) (b : B) : Accounts s (s.write d false b).1 := by
  intro e
  refine ⟨congrFun (put_due s d _ _) e, ?_⟩
  rw [State.written_write, if_neg fun h => Bool.false_ne_true h.1, List.append_nil]
  congr 1
  exact owed_put s d e _ _

omit [DecidableEq D] in
theorem owed_cons (s : State D B) (d : D) {f : Frame D B} {stack : List (Frame D B)} [DecidableEq D]
    (hstack : s.stack = f :: stack) : s.owed d = f.owed d ++ stack.flatMap (Frame.owed d) := by
  rw [State.owed, hstack, List.flatMap_cons]

theorem deliver_cases (s : State D B) (d : D) (b : B) :
    ((s.write d true b).2 = true ∧ s.deliver d b = (s.write d true b).1) ∨
    ((s.write d true b).2 = false ∧ s.deliver d b = { (s.write d true b).1 with
      reading := false
      stack := .pause (some d) :: (s.write d true b).1.stack }) := by
  unfold State.deliver
  cases hw : (s.write d true b).2 with
  | true =>
    left
    simp only [if_true, hw, and_self]
  | false =>
    right
    simp only [Bool.false_eq_true, if_false, hw, and_self]

/-- A buffer that an emit owes is written. -/
theorem accounts_deliver {s : State D B} {d : D} {b : B} {rest : List (Option D)}
    {stack : List (Frame D B)} (hstack : s.stack = .emit b (some d :: rest) :: stack) :
    Accounts s ({ s with stack := .emit b rest :: stack }.deliver d b) := by
  intro e
  let s₀ : State D B := { s with stack := .emit b rest :: stack }
  have hput : (s₀.write d true b).1.owed e = s₀.owed e := owed_put s₀ d e _ _
  have hwrite : (s₀.write d true b).1.written e = s.written e ++ if e = d then [b] else [] := by
    rw [State.written_write]
    simp only [true_and]
    rfl
  obtain ⟨hdue, hwritten, howed⟩ : (s₀.deliver d b).due e = s.due e ∧
      (s₀.deliver d b).written e = (s₀.write d true b).1.written e ∧
      (s₀.deliver d b).owed e = s₀.owed e := by
    rcases deliver_cases s₀ d b with ⟨-, h⟩ | ⟨-, h⟩ <;> rw [h]
    · exact ⟨congrFun (put_due s₀ d _ _) e, rfl, hput⟩
    · exact ⟨congrFun (put_due s₀ d _ _) e, rfl, hput⟩
  refine ⟨hdue, ?_⟩
  rw [hwritten, hwrite, howed, owed_cons s e hstack, owed_cons s₀ e rfl, List.append_assoc]
  congr 1
  simp only [Frame.owed, List.count_cons, Option.some_beq_some, beq_iff_eq]
  by_cases he : e = d
  · rw [if_pos he, if_pos he.symm, List.replicate_succ]
    rfl
  · rw [if_neg he, if_neg (Ne.symm he)]
    rfl

/-- Only `push` makes anything due. -/
theorem accounts_step {s s' : State D B} {a : Act D B} (hstep : step s a = some s')
    (ha : ∀ b, a ≠ .push b) : Accounts s s' := by
  have hsame : Accounts s s := fun d => ⟨rfl, rfl⟩
  cases a with
  | pipe d =>
    obtain rfl := Option.some.inj hstep
    simp only [State.pipe, State.newListener]
    split_ifs <;> exact hsame
  | on =>
    obtain rfl := Option.some.inj hstep
    simp only [State.on, State.newListener]
    split_ifs <;> exact hsame
  | off n =>
    obtain rfl := Option.some.inj hstep
    simp only [State.off, State.removeListener]
    split_ifs <;> exact hsame
  | push b => exact absurd rfl (ha b)
  | ending =>
    obtain rfl := Option.some.inj hstep
    exact hsame
  | write d b =>
    obtain rfl := Option.some.inj hstep
    exact accounts_write s d b
  | finishing d =>
    obtain rfl := Option.some.inj hstep
    exact accounts_put s d _ (moves_finishing _).2.written
  | settle d rejected =>
    obtain ⟨t, ht, rfl⟩ := Option.map_eq_some_iff.mp hstep
    exact accounts_put s d _ (moves_settle ht).2.written
  | next =>
    simp only [step, State.next] at hstep
    split at hstep
    · rename_i b d rest stack hstack
      obtain rfl := Option.some.inj hstep
      exact accounts_deliver hstack
    · rename_i b rest stack hstack
      obtain rfl := Option.some.inj hstep
      intro e
      refine ⟨rfl, ?_⟩
      rw [owed_cons s e hstack]
      simp [State.owed, Frame.owed, State.written]
    · rename_i b stack hstack
      obtain rfl := Option.some.inj hstep
      exact accounts_pop hstack fun d => rfl
    · rename_i d rest stack hstack
      obtain rfl := Option.some.inj hstep
      intro e
      obtain ⟨hdue, hsum⟩ := accounts_put { s with stack := .ending rest :: stack } d
        (s.dests d).stack.length (moves_finishing (s.dests d)).2.written e
      refine ⟨hdue, hsum.trans ?_⟩
      rw [owed_cons s e hstack]
      rfl
    · rename_i stack hstack
      obtain rfl := Option.some.inj hstep
      exact accounts_pop hstack fun d => rfl
    · rename_i d stack hstack
      obtain rfl := Option.some.inj hstep
      exact accounts_pop hstack fun d => rfl
    · rename_i d resume stack hstack
      obtain rfl := Option.some.inj hstep
      intro e
      refine ⟨rfl, ?_⟩
      rw [owed_cons s e hstack]
      rfl
    · contradiction
  | returns outcome =>
    simp only [step, State.returns] at hstep
    split at hstep
    · rename_i stack hstack
      obtain rfl := Option.some.inj hstep
      exact accounts_pop hstack fun d => rfl
    · rename_i stack hstack
      obtain rfl := Option.some.inj hstep
      exact accounts_pop hstack fun d => rfl
    · rename_i stack hstack
      obtain rfl := Option.some.inj hstep
      exact accounts_pop hstack fun d => rfl
    · rename_i d stack hstack
      obtain rfl := Option.some.inj hstep
      exact accounts_pop hstack fun d => rfl
    · rename_i d stack hstack
      obtain ⟨t, ht, rfl⟩ := Option.map_eq_some_iff.mp hstep
      intro e
      obtain ⟨hdue, hsum⟩ := accounts_put { s with stack := stack } d
        ((s.dests d).stack.length - 1) (moves_returns ht).2.2.written e
      refine ⟨hdue, hsum.trans ?_⟩
      rw [owed_cons s e hstack]
      rfl
    · contradiction

/-! ## The frames of the writable streams -/

def Frame.isDest (d : D) : Frame D B → Bool
  | .dest e _ => decide (e = d)
  | _ => false

/-- The streams are what `Writable` says, and what they have called is on the stack. -/
structure Kept (s : State D B) : Prop where
  streams : ∀ d, Writable.Inv (s.dests d)
  frames : ∀ d, s.stack.countP (Frame.isDest d) = (s.dests d).stack.length

theorem kept_create : Kept (State.create : State D B) := ⟨fun _ => inv_create, fun _ => rfl⟩

/-- A stream is put back that has moved. -/
theorem kept_put {s : State D B} {d : D} {t : Stream (Bool × B)} {depth : Nat}
    (hstreams : ∀ e, Writable.Inv (s.dests e)) (ht : Writable.Inv t)
    (hgrows : t.stack.length = depth ∨ t.stack.length = depth + 1)
    (hdepth : s.stack.countP (Frame.isDest d) = depth)
    (hframes : ∀ e, e ≠ d → s.stack.countP (Frame.isDest e) = (s.dests e).stack.length) :
    Kept (s.put d t depth) := by
  constructor
  · intro e
    rw [put_dests]
    by_cases he : e = d
    · rw [he, Function.update_self]
      exact ht
    · rw [Function.update_of_ne he]
      exact hstreams e
  · intro e
    rw [put_dests]
    have hone : ∀ resume, (Frame.dest d resume :: s.stack).countP (Frame.isDest e)
        = s.stack.countP (Frame.isDest e) + if d = e then 1 else 0 := by
      intro resume
      simp only [List.countP_cons, Frame.isDest, decide_eq_true_eq]
    by_cases he : e = d
    · rw [he] at hone ⊢
      rw [Function.update_self]
      rcases put_cases s d t depth with ⟨hle, h⟩ | ⟨hlt, -, h⟩ | ⟨hlt, -, h⟩ <;> rw [h]
      · simp only
        omega
      · simp only [hone, if_true]
        omega
      · simp only [hone, if_true]
        omega
    · rw [Function.update_of_ne he, ← hframes e he]
      rw [if_neg (Ne.symm he)] at hone
      rcases put_stack s d t depth with h | ⟨resume, h⟩ <;> rw [h]
      exact hone resume

theorem kept_write {s : State D B} (h : Kept s) (d : D) (piped : Bool) (b : B) :
    Kept (s.write d piped b).1 :=
  kept_put h.streams (inv_write (h.streams d) (piped, b)) (moves_write _ _).grows (h.frames d)
    fun e _ => h.frames e

theorem kept_finishing {s : State D B} (h : Kept s) (d : D) : Kept (s.finishing d) :=
  kept_put h.streams (inv_finishing (h.streams d)) (moves_finishing _).1.grows (h.frames d)
    fun e _ => h.frames e

/-- A frame that is no writable stream's changes nothing about them. -/
theorem kept_push {s : State D B} (h : Kept s) {f : Frame D B} (hf : ∀ d, f.isDest d = false) :
    Kept { s with stack := f :: s.stack } := by
  refine ⟨h.streams, fun d => ?_⟩
  rw [List.countP_cons_of_neg (by simp [hf d])]
  exact h.frames d

theorem kept_pop {s : State D B} (h : Kept s) {f : Frame D B} {stack : List (Frame D B)}
    (hstack : s.stack = f :: stack) (hf : ∀ d, f.isDest d = false) : Kept { s with stack := stack } := by
  refine ⟨h.streams, fun d => ?_⟩
  have hframes := h.frames d
  rw [hstack, List.countP_cons_of_neg (by simp [hf d])] at hframes
  exact hframes

theorem kept_deliver {s : State D B} (h : Kept s) (d : D) (b : B) : Kept (s.deliver d b) := by
  have hwrite := kept_write h d true b
  rcases deliver_cases s d b with ⟨-, heq⟩ | ⟨-, heq⟩ <;> rw [heq]
  · exact hwrite
  · have hpause : Kept { (s.write d true b).1 with reading := false } := ⟨hwrite.streams, hwrite.frames⟩
    exact kept_push hpause fun d => rfl

theorem kept_newListener {s : State D B} (h : Kept s) : Kept s.newListener := by
  unfold State.newListener
  split_ifs
  · have hread : Kept { s with reading := true } := ⟨h.streams, h.frames⟩
    exact kept_push hread fun d => rfl
  · exact h

theorem kept_step (s : State D B) (a : Act D B) (s' : State D B) (h : Kept s) (hstep : step s a = some s') :
    Kept s' := by
  cases a with
  | pipe d =>
    obtain rfl := Option.some.inj hstep
    have hdata : Kept { s with data := s.data ++ [some d] } := ⟨h.streams, h.frames⟩
    exact kept_newListener (kept_push hdata fun d => rfl)
  | on =>
    obtain rfl := Option.some.inj hstep
    have hdata : Kept { s with data := s.data ++ [none] } := ⟨h.streams, h.frames⟩
    exact kept_newListener hdata
  | off n =>
    obtain rfl := Option.some.inj hstep
    simp only [State.off, State.removeListener]
    split_ifs
    · exact kept_push (s := { s with data := s.data.eraseIdx n, reading := false }) ⟨h.streams, h.frames⟩
        fun d => rfl
    · exact ⟨h.streams, h.frames⟩
    · exact kept_push (s := { s with reading := false }) ⟨h.streams, h.frames⟩ fun d => rfl
    · exact h
  | push b =>
    obtain rfl := Option.some.inj hstep
    have hpushed := @kept_push _ _ _ s h (.emit b s.data) fun d => rfl
    exact ⟨hpushed.streams, hpushed.frames⟩
  | ending =>
    obtain rfl := Option.some.inj hstep
    exact kept_push h fun d => rfl
  | write d b =>
    obtain rfl := Option.some.inj hstep
    exact kept_write h d false b
  | finishing d =>
    obtain rfl := Option.some.inj hstep
    exact kept_finishing h d
  | settle d rejected =>
    obtain ⟨t, ht, rfl⟩ := Option.map_eq_some_iff.mp hstep
    exact kept_put h.streams (inv_step _ _ _ (h.streams d) ht) (moves_settle ht).1.grows (h.frames d)
      fun e _ => h.frames e
  | next =>
    simp only [step, State.next] at hstep
    split at hstep
    · rename_i b d rest stack hstack
      obtain rfl := Option.some.inj hstep
      have hpop := kept_pop h hstack fun d => rfl
      exact kept_deliver (kept_push hpop fun d => rfl) d b
    · rename_i b rest stack hstack
      obtain rfl := Option.some.inj hstep
      have hpop := kept_pop h hstack fun d => rfl
      exact kept_push (kept_push hpop fun d => rfl) fun d => rfl
    · rename_i b stack hstack
      obtain rfl := Option.some.inj hstep
      exact kept_pop h hstack fun d => rfl
    · rename_i d rest stack hstack
      obtain rfl := Option.some.inj hstep
      have hpop := kept_pop h hstack fun d => rfl
      exact kept_finishing (kept_push hpop fun d => rfl) d
    · rename_i stack hstack
      obtain rfl := Option.some.inj hstep
      exact kept_pop h hstack fun d => rfl
    · rename_i d stack hstack
      obtain rfl := Option.some.inj hstep
      have hpop := kept_pop h hstack fun d => rfl
      exact ⟨hpop.streams, hpop.frames⟩
    · rename_i d resume stack hstack
      obtain rfl := Option.some.inj hstep
      refine ⟨h.streams, fun e => ?_⟩
      rw [← h.frames e, hstack]
      rfl
    · contradiction
  | returns outcome =>
    simp only [step, State.returns] at hstep
    split at hstep
    · rename_i stack hstack
      obtain rfl := Option.some.inj hstep
      exact kept_pop h hstack fun d => rfl
    · rename_i stack hstack
      obtain rfl := Option.some.inj hstep
      exact kept_pop h hstack fun d => rfl
    · rename_i stack hstack
      obtain rfl := Option.some.inj hstep
      exact kept_pop h hstack fun d => rfl
    · rename_i d stack hstack
      obtain rfl := Option.some.inj hstep
      have hpop := kept_pop h hstack fun d => rfl
      exact ⟨hpop.streams, hpop.frames⟩
    · rename_i d stack hstack
      obtain ⟨t, ht, rfl⟩ := Option.map_eq_some_iff.mp hstep
      have hframes := h.frames
      simp only [hstack, List.countP_cons, Frame.isDest, decide_eq_true_eq] at hframes
      refine kept_put h.streams (inv_step _ _ _ (h.streams d) ht) (moves_returns ht).2.1.grows ?_ fun e he => ?_
      · have hd := hframes d
        rw [if_pos rfl] at hd
        simp only
        omega
      · have he' := hframes e
        rwa [if_neg (Ne.symm he), Nat.add_zero] at he'
    · contradiction

/-! ## Whole runs -/

/-- No buffer is pushed while another one is given to the listeners. -/
def calm (s : State D B) : Act D B → Prop
  | .push _ => ∀ f ∈ s.stack, f.isEmit = false
  | _ => True

instance [DecidableEq B] (s : State D B) : ∀ a : Act D B, Decidable (calm s a)
  | .push _ => inferInstanceAs (Decidable (∀ f ∈ s.stack, f.isEmit = false))
  | .pipe _ => isTrue trivial
  | .on => isTrue trivial
  | .off _ => isTrue trivial
  | .ending => isTrue trivial
  | .write _ _ => isTrue trivial
  | .finishing _ => isTrue trivial
  | .settle _ _ => isTrue trivial
  | .next => isTrue trivial
  | .returns _ => isTrue trivial

omit [DecidableEq D] in
theorem owed_of_calm [DecidableEq D] {s : State D B} (h : ∀ f ∈ s.stack, f.isEmit = false) (d : D) :
    s.owed d = [] := by
  rw [State.owed, List.flatMap_eq_nil_iff]
  intro f hf
  have hemit := h f hf
  cases f with
  | emit b rest => contradiction
  | _ => rfl

theorem accounts_push (s : State D B) (b : B) (d : D) :
    (s.push b).due d = s.due d ++ List.replicate (s.data.count (some d)) b ∧
      (s.push b).written d = s.written d ∧
      (s.push b).owed d = List.replicate (s.data.count (some d)) b ++ s.owed d :=
  ⟨rfl, rfl, rfl⟩

theorem delivered_step (s : State D B) (a : Act D B) (s' : State D B)
    (h : ∀ d, (s.written d ++ s.owed d).Perm (s.due d)) (hstep : step s a = some s') :
    ∀ d, (s'.written d ++ s'.owed d).Perm (s'.due d) := by
  intro d
  by_cases ha : ∃ b, a = .push b
  · obtain ⟨b, rfl⟩ := ha
    obtain rfl := Option.some.inj hstep
    obtain ⟨hdue, hwritten, howed⟩ := accounts_push s b d
    rw [hdue, hwritten, howed, ← List.append_assoc]
    refine List.Perm.trans ?_ ((h d).append_right _)
    rw [List.append_assoc, List.append_assoc]
    exact List.Perm.append_left _ List.perm_append_comm
  · obtain ⟨hdue, hsum⟩ := accounts_step hstep (fun b hb => ha ⟨b, hb⟩) d
    rw [hdue, hsum]
    exact h d

theorem ordered_step (s : State D B) (a : Act D B) (s' : State D B)
    (h : ∀ d, s.written d ++ s.owed d = s.due d) (hcalm : calm s a) (hstep : step s a = some s') :
    ∀ d, s'.written d ++ s'.owed d = s'.due d := by
  intro d
  by_cases ha : ∃ b, a = .push b
  · obtain ⟨b, rfl⟩ := ha
    obtain rfl := Option.some.inj hstep
    obtain ⟨hdue, hwritten, howed⟩ := accounts_push s b d
    have hd := h d
    rw [owed_of_calm hcalm, List.append_nil] at hd
    rw [hdue, hwritten, howed, owed_of_calm hcalm, List.append_nil, hd]
  · obtain ⟨hdue, hsum⟩ := accounts_step hstep (fun b hb => ha ⟨b, hb⟩) d
    rw [hdue, hsum]
    exact h d

/-- No code runs, and every promise is settled. -/
def AtRest (s : State D B) : Prop := s.stack = [] ∧ ∀ d, (s.dests d).unsettled = 0

theorem Kept.called_of_atRest {s : State D B} (h : Kept s) (hrest : AtRest s) (d : D) :
    s.called d = s.written d ∧ s.owed d = [] := by
  obtain ⟨hstack, hunsettled⟩ := hrest
  have hframes := h.frames d
  rw [hstack, List.countP_nil] at hframes
  have hcalled := (h.streams d).orderly.rest (List.eq_nil_of_length_eq_zero hframes.symm) (hunsettled d)
  refine ⟨by rw [State.called, hcalled, State.written], ?_⟩
  rw [State.owed, hstack, List.flatMap_nil]

/-- What was pushed for a stream has been written to it by the pipe, or will be: nothing is lost, and
nothing comes twice. -/
structure Delivers (s : State D B) : Prop where
  due : ∀ d, (s.written d ++ s.owed d).Perm (s.due d)
  rest : AtRest s → ∀ d, (s.called d).Perm (s.due d)

/-- It comes in the order in which it was pushed. -/
structure DeliversInOrder (s : State D B) : Prop where
  due : ∀ d, s.written d ++ s.owed d = s.due d
  rest : AtRest s → ∀ d, s.called d = s.due d

/-- Whatever is pushed, written and settled, from wherever: each stream gets what was pushed for its
listeners, once for each; and in order, unless something is pushed inside of a push. -/
theorem pipe_delivers (as : List (Act D B)) (s : State D B) (h : run step .create as = some s) :
    Delivers s ∧ (Meets step calm .create as → DeliversInOrder s) := by
  have hkept : Kept s := invariant kept_step h kept_create
  have hdue := invariant delivered_step h fun d => List.Perm.nil
  refine ⟨⟨hdue, fun hrest d => ?_⟩, fun hcalm => ?_⟩
  · obtain ⟨hcalled, howed⟩ := hkept.called_of_atRest hrest d
    have hd := hdue d
    rwa [howed, List.append_nil, ← hcalled] at hd
  have hordered := invariant_of_meets ordered_step hcalm h fun d => rfl
  refine ⟨hordered, fun hrest d => ?_⟩
  obtain ⟨hcalled, howed⟩ := hkept.called_of_atRest hrest d
  rw [← hordered d, howed, List.append_nil, hcalled]

/-- Two buffers to two streams; the second one waits for the first, whose write is rejected. -/
def twoDests : List (Act Bool Nat) :=
  [.pipe true, .returns none, .next, .pipe false, .next,
    .push 1, .next, .returns none, .next, .returns none, .next,
    .push 2, .next, .next, .next,
    .settle true true, .returns none, .returns none, .settle true false, .returns none,
    .settle false false, .returns (some false), .returns none]

theorem twoDests_delivers :
    (run step .create twoDests).map (fun s => (s.called true, s.called false, s.stack.length))
        = some ([1, 2], [1, 2], 0) ∧
      ∀ s, run step .create twoDests = some s → DeliversInOrder s :=
  ⟨by decide, fun s h => (pipe_delivers twoDests s h).2 (by decide)⟩

end Nodeoze.Event.Pipe
