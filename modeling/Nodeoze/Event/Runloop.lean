import Nodeoze.Lib.Runs
import Mathlib.Data.List.Infix

/-!
# The dispatch queue of the runloop

`runloop::dispatch` may be called on any thread: it puts a function at the end of `m_queue`, under the
mutex of the queue, and then sends the async handle a signal.  One thread runs the loop: `run` takes
functions out and calls them until there are none, and is then in `uv_run`, which calls `on_wakeup` when
there is a signal, and the callbacks of events.  The functions and the callbacks are code of the program:
they may dispatch, call `run`, and throw.

libuv clears the signal before it calls `on_wakeup`, and any number of signals may be one call.  `uv_run`
may return at any point between two callbacks; `mode_t` and `stop` say where it does.  No exception
passes through libuv.
-/

namespace Nodeoze.Event.Runloop

open Runs

/-- The calls of the loop's thread: code of the program that libuv or a drain has called, `run` before and
in `uv_run`, and `on_wakeup`.  `served` is how many functions had been dispatched when `run` was called. -/
inductive Frame
  | call
  | run (served : Nat)
  | poll (served : Nat)
  | wakeup
  deriving DecidableEq, Repr

/-- `posting` are the threads that are in `dispatch` and have not yet sent the signal; `dispatched` and
`started` are the functions that were put into the queue and those that were called. -/
structure State (F : Type) where
  queue : List F
  posting : List Nat
  signalled : Bool
  frames : List Frame
  dispatched : List F
  started : List F
  deriving DecidableEq, Repr

/-- What the loop's thread does next, but for `dispatch`. -/
inductive Move
  | run
  | drain
  | wakeup
  | callback
  | leave
  | ret
  | throws
  deriving DecidableEq, Repr

inductive Act (F : Type)
  | emplace (thread : Nat) (f : F)
  | send (thread : Nat)
  | move (m : Move)
  deriving DecidableEq, Repr

variable {F : Type}

def create : State F := ⟨[], [], false, [], [], []⟩

/-- The thread that runs the loop. -/
def loop : Nat := 0

/-- Code of the program is running on the loop's thread. -/
def Program : List Frame → Bool
  | [] => true
  | .call :: _ => true
  | _ => false

/-- `m_queue.emplace`; a thread makes one call at a time. -/
def emplace (s : State F) (t : Nat) (f : F) : Option (State F) :=
  if t ∈ s.posting ∨ (t = loop ∧ Program s.frames = false) then none
  else some { s with
    queue := s.queue ++ [f], posting := t :: s.posting, dispatched := s.dispatched ++ [f] }

/-- `uv_async_send` -/
def send (s : State F) (t : Nat) : Option (State F) :=
  if t ∈ s.posting then some { s with posting := s.posting.erase t, signalled := true } else none

/-- One round of the loop of `drain_dispatch_queue`: a function is called, or there is none and the loop is
over. -/
def drain (s : State F) : Option (State F) :=
  match s.frames, s.queue with
  | .run n :: fs, [] => some { s with frames := .poll n :: fs }
  | .wakeup :: fs, [] => some { s with frames := fs }
  | .run n :: fs, f :: q =>
    some { s with queue := q, frames := .call :: .run n :: fs, started := s.started ++ [f] }
  | .wakeup :: fs, f :: q =>
    some { s with queue := q, frames := .call :: .wakeup :: fs, started := s.started ++ [f] }
  | _, _ => none

def advance (s : State F) : Move → Option (State F)
  | .run => if Program s.frames then some { s with frames := .run s.dispatched.length :: s.frames } else none
  | .drain => drain s
  | .wakeup =>
    match s.frames with
    | .poll n :: fs =>
      if s.signalled then some { s with signalled := false, frames := .wakeup :: .poll n :: fs } else none
    | _ => none
  | .callback =>
    match s.frames with
    | .poll n :: fs => some { s with frames := .call :: .poll n :: fs }
    | _ => none
  | .leave =>
    match s.frames with
    | .poll _ :: fs => some { s with frames := fs }
    | _ => none
  | .ret =>
    match s.frames with
    | .call :: fs => some { s with frames := fs }
    | _ => none
  | .throws =>
    -- the drain that called the function ends too, and the exception is in the code that called `run`
    match s.frames with
    | .call :: .run _ :: fs => some { s with frames := fs }
    | _ => none

def step (s : State F) : Act F → Option (State F)
  | .emplace t f => emplace s t f
  | .send t => send s t
  | .move m => if loop ∈ s.posting then none else advance s m

/-- The frames above the innermost `uv_run`. -/
def inner (fs : List Frame) : List Frame :=
  fs.takeWhile fun
    | .poll _ => false
    | _ => true

/-- Functions that wait have a thread that will send a signal, or a signal, or a drain for the last signal. -/
structure Inv (s : State F) : Prop where
  order : s.dispatched = s.started ++ s.queue
  awake : s.queue ≠ [] → s.posting ≠ [] ∨ s.signalled = true ∨ .wakeup ∈ inner s.frames
  called : ∀ {n}, .run n ∈ s.frames → n ≤ s.dispatched.length
  served : ∀ {n}, .poll n ∈ s.frames → n ≤ s.started.length

variable {s s' : State F}

theorem inv_create : Inv (create : State F) where
  order := rfl
  awake h := absurd rfl h
  called h := nomatch h
  served h := nomatch h

theorem inner_poll (n : Nat) (fs : List Frame) : inner (.poll n :: fs) = [] := rfl

theorem wakeup_mem_call {fs : List Frame} : .wakeup ∈ inner (.call :: fs) ↔ .wakeup ∈ inner fs := by
  change .wakeup ∈ .call :: inner fs ↔ _
  rw [List.mem_cons, or_iff_right Frame.noConfusion]

theorem wakeup_mem_run {n : Nat} {fs : List Frame} : .wakeup ∈ inner (.run n :: fs) ↔ .wakeup ∈ inner fs := by
  change .wakeup ∈ .run n :: inner fs ↔ _
  rw [List.mem_cons, or_iff_right Frame.noConfusion]

/-! ## What a step keeps -/

theorem Inv.emplace (h : Inv s) {t : Nat} {f : F} (hs : Runloop.emplace s t f = some s') : Inv s' := by
  unfold Runloop.emplace at hs
  split_ifs at hs
  obtain rfl := Option.some.inj hs
  refine ⟨?_, fun _ => .inl (List.cons_ne_nil _ _), fun {n} hn => ?_, h.served⟩
  · change s.dispatched ++ [f] = s.started ++ (s.queue ++ [f])
    rw [h.order, List.append_assoc]
  · change n ≤ (s.dispatched ++ [f]).length
    rw [List.length_append]
    exact Nat.le_add_right_of_le (h.called hn)

theorem Inv.send (h : Inv s) {t : Nat} (hs : Runloop.send s t = some s') : Inv s' := by
  unfold Runloop.send at hs
  split_ifs at hs
  obtain rfl := Option.some.inj hs
  exact ⟨h.order, fun _ => .inr (.inl rfl), h.called, h.served⟩

/-- A function is taken out and called. -/
theorem Inv.pop (h : Inv s) {f : F} {q : List F} (hq : s.queue = f :: q) :
    Inv { s with queue := q, frames := .call :: s.frames, started := s.started ++ [f] } := by
  constructor
  · change s.dispatched = s.started ++ [f] ++ q
    rw [h.order, hq, List.append_assoc, List.singleton_append]
  · intro _
    have hawake := h.awake (by rw [hq]; exact List.cons_ne_nil _ _)
    rwa [wakeup_mem_call]
  · intro n hn
    rw [List.mem_cons, or_iff_right Frame.noConfusion] at hn
    exact h.called hn
  · intro n hn
    rw [List.mem_cons, or_iff_right Frame.noConfusion] at hn
    change n ≤ (s.started ++ [f]).length
    rw [List.length_append]
    exact Nat.le_add_right_of_le (h.served hn)

theorem Inv.drain (h : Inv s) (hs : Runloop.drain s = some s') : Inv s' := by
  unfold Runloop.drain at hs
  split at hs
  · rename_i n fs hfs hq
    obtain rfl := Option.some.inj hs
    refine ⟨h.order, fun hne => absurd hq hne, fun {m} hm => ?_, fun {m} hm => ?_⟩
    · rw [List.mem_cons, or_iff_right Frame.noConfusion] at hm
      exact h.called (hfs ▸ List.mem_cons_of_mem _ hm)
    · -- every function that was dispatched has been called
      rcases List.mem_cons.mp hm with heq | hm
      · obtain rfl : m = n := Frame.poll.inj heq
        have hall : s.dispatched = s.started := by rw [h.order, hq, List.append_nil]
        rw [← hall]
        exact h.called (hfs ▸ List.mem_cons_self)
      · exact h.served (hfs ▸ List.mem_cons_of_mem _ hm)
  · rename_i fs hfs hq
    obtain rfl := Option.some.inj hs
    exact ⟨h.order, fun hne => absurd hq hne, fun hm => h.called (hfs ▸ List.mem_cons_of_mem _ hm),
      fun hm => h.served (hfs ▸ List.mem_cons_of_mem _ hm)⟩
  · rename_i n fs f q hfs hq
    obtain rfl := Option.some.inj hs
    have hpop := h.pop hq
    rwa [hfs] at hpop
  · rename_i fs f q hfs hq
    obtain rfl := Option.some.inj hs
    have hpop := h.pop hq
    rwa [hfs] at hpop
  · contradiction

/-- Frames go, but no wakeup does, and a new one is neither `run` nor `uv_run`. -/
theorem Inv.frames (h : Inv s) {fs : List Frame}
    (hawake : s.posting ≠ [] ∨ s.signalled = true ∨ .wakeup ∈ inner s.frames →
      s.posting ≠ [] ∨ s.signalled = true ∨ .wakeup ∈ inner fs)
    (hcalled : ∀ n, .run n ∈ fs → .run n ∈ s.frames ∨ n = s.dispatched.length)
    (hserved : ∀ n, .poll n ∈ fs → .poll n ∈ s.frames) : Inv { s with frames := fs } := by
  refine ⟨h.order, fun hne => hawake (h.awake hne), fun {n} hn => ?_, fun {n} hn => h.served (hserved n hn)⟩
  rcases hcalled n hn with hn | rfl
  · exact h.called hn
  · exact Nat.le_refl _

theorem Inv.advance (h : Inv s) {m : Move} (hs : Runloop.advance s m = some s') : Inv s' := by
  cases m with
  | run =>
    rw [Runloop.advance] at hs
    split_ifs at hs
    obtain rfl := Option.some.inj hs
    refine h.frames ?_ (fun n hn => ?_) (fun n hn => ?_)
    · rw [wakeup_mem_run]
      exact id
    · rcases List.mem_cons.mp hn with heq | hn
      · exact .inr (Frame.run.inj heq)
      · exact .inl hn
    · rwa [List.mem_cons, or_iff_right Frame.noConfusion] at hn
  | drain => exact h.drain hs
  | wakeup =>
    rw [Runloop.advance] at hs
    split at hs
    · rename_i n fs hfs
      split_ifs at hs
      obtain rfl := Option.some.inj hs
      refine ⟨h.order, fun _ => .inr (.inr List.mem_cons_self), fun hm => ?_, fun hm => ?_⟩
      · rw [List.mem_cons, or_iff_right Frame.noConfusion] at hm
        exact h.called (hfs ▸ hm)
      · rw [List.mem_cons, or_iff_right Frame.noConfusion] at hm
        exact h.served (hfs ▸ hm)
    · contradiction
  | callback =>
    rw [Runloop.advance] at hs
    split at hs
    · rename_i n fs hfs
      obtain rfl := Option.some.inj hs
      rw [← hfs]
      refine h.frames ?_ (fun n hn => ?_) (fun n hn => ?_)
      · rw [wakeup_mem_call]
        exact id
      · rw [List.mem_cons, or_iff_right Frame.noConfusion] at hn
        exact .inl hn
      · rwa [List.mem_cons, or_iff_right Frame.noConfusion] at hn
    · contradiction
  | leave =>
    rw [Runloop.advance] at hs
    split at hs
    · rename_i n fs hfs
      obtain rfl := Option.some.inj hs
      refine h.frames ?_ (fun n hn => .inl (hfs ▸ List.mem_cons_of_mem _ hn))
        (fun n hn => hfs ▸ List.mem_cons_of_mem _ hn)
      rw [hfs, inner_poll, or_iff_left (List.not_mem_nil)]
      exact Or.imp_right .inl
    · contradiction
  | ret =>
    rw [Runloop.advance] at hs
    split at hs
    · rename_i fs hfs
      obtain rfl := Option.some.inj hs
      refine h.frames ?_ (fun n hn => .inl (hfs ▸ List.mem_cons_of_mem _ hn))
        (fun n hn => hfs ▸ List.mem_cons_of_mem _ hn)
      rw [hfs, wakeup_mem_call]
      exact id
    · contradiction
  | throws =>
    rw [Runloop.advance] at hs
    split at hs
    · rename_i n fs hfs
      obtain rfl := Option.some.inj hs
      refine h.frames ?_ (fun n hn => .inl (hfs ▸ List.mem_cons_of_mem _ (List.mem_cons_of_mem _ hn)))
        (fun n hn => hfs ▸ List.mem_cons_of_mem _ (List.mem_cons_of_mem _ hn))
      rw [hfs, wakeup_mem_call, wakeup_mem_run]
      exact id
    · contradiction

theorem Inv.step (h : Inv s) {a : Act F} (hs : Runloop.step s a = some s') : Inv s' := by
  cases a with
  | emplace t f => exact h.emplace hs
  | send t => exact h.send hs
  | move m =>
    rw [Runloop.step] at hs
    split_ifs at hs
    exact h.advance hs

/-- In every interleaving of the threads, the functions are called once each, in the order in which they were
dispatched, also when some throw.  While the loop's thread is in `uv_run` or outside `run`, a function
that waits has a signal, or a thread that is about to send one, so that the loop does not sleep on it.  `run`
does not come to `uv_run` before the functions that were dispatched before it are called. -/
theorem dispatched_called {as : List (Act F)} (h : run step create as = some s) :
    s.dispatched = s.started ++ s.queue ∧
    (s.frames = [] ∨ (∃ n fs, s.frames = .poll n :: fs) → s.queue ≠ [] →
      s.signalled = true ∨ s.posting ≠ []) ∧
    (∀ n, .poll n ∈ s.frames → s.dispatched.take n <+: s.started) := by
  have hinv : Inv s := invariant (fun _ _ _ hi hs => hi.step hs) h inv_create
  refine ⟨hinv.order, fun hwait hne => ?_, fun n hn => ?_⟩
  · have hnone : .wakeup ∉ inner s.frames := by
      obtain hnil | ⟨n, fs, hfs⟩ := hwait
      · rw [hnil]
        exact List.not_mem_nil
      · rw [hfs, inner_poll]
        exact List.not_mem_nil
    obtain hposting | hsignalled | hmem := hinv.awake hne
    · exact .inr hposting
    · exact .inl hsignalled
    · exact absurd hmem hnone
  · have hle := hinv.served hn
    rw [hinv.order, List.take_append_of_le_length hle]
    exact List.take_prefix _ _

/-- Two threads dispatch before either sends its signal; the first function dispatches a third and runs the
loop, and the second throws through that.  The fourth is dispatched while the loop is in `uv_run`. -/
def raced : List (Act Nat) :=
  [.move .run, .move .drain, .emplace 1 1, .emplace 2 2, .send 2, .move .wakeup, .move .drain, .emplace loop 3,
    .send loop, .move .run, .move .drain, .move .throws, .move .ret, .move .drain, .send 1, .move .ret,
    .move .drain, .move .wakeup, .move .drain, .emplace 2 4]

theorem raced_called : ∃ s, run step create raced = some s ∧
    (s.dispatched = s.started ++ s.queue ∧
    (s.frames = [] ∨ (∃ n fs, s.frames = .poll n :: fs) → s.queue ≠ [] →
      s.signalled = true ∨ s.posting ≠ []) ∧
    (∀ n, .poll n ∈ s.frames → s.dispatched.take n <+: s.started)) ∧
    s.started = [1, 2, 3] ∧ s.queue = [4] ∧ s.posting = [2] := by
  have hrun : run step create raced = some ⟨[4], [2], false, [.poll 0], [1, 2, 3, 4], [1, 2, 3]⟩ := by decide
  exact ⟨_, hrun, dispatched_called hrun, rfl, rfl, rfl⟩

end Nodeoze.Event.Runloop
