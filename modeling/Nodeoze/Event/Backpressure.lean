import Mathlib
import Nodeoze.Event.Pipe

/-!
# Backpressure

A source that is paused because a stream is full is told to read again: the listener of `drain` is
registered while that stream still writes, so that a `drain` is to come.  It is not if `really_pause`
itself makes the stream drain.

With one stream, which only the pipe writes to, and a source that pushes nothing while it is paused, no
more than six buffers wait.  With two streams the `drain` of one resumes the source while the other is full.
-/

namespace Nodeoze.Event.Pipe

open Runs Writable

variable {D B : Type} [DecidableEq D]

/-! ## A source that is paused -/

/-- The source will be told to read. -/
inductive Pending (s : State D B) : Prop
  | waiting {d : D} : 0 < s.waiting d → Pending s
  | pausing {d : D} : .pause (some d) ∈ s.stack → Pending s
  | draining {d : D} {resume : Nat} : .dest d (resume + 1) ∈ s.stack → Pending s

/-- While there are listeners of `data`, a source that is paused will be told to read; and the listeners
of `drain` are called. -/
structure Wakes (s : State D B) : Prop where
  pending : s.reading = false → s.data ≠ [] → Pending s
  writing : ∀ d, 0 < s.waiting d → (s.dests d).writing = true

/-- The stream that was full has not drained when `really_pause` returns. -/
def State.stillFull (s : State D B) : Bool :=
  match s.stack with
  | .pause (some d) :: _ => (s.dests d).writing
  | _ => true

/-- No `really_pause` makes the stream drain that was full. -/
def stillFull (s : State D B) : Act D B → Prop
  | .returns _ => s.stillFull = true
  | _ => True

instance (s : State D B) : ∀ a : Act D B, Decidable (stillFull s a)
  | .returns _ => inferInstanceAs (Decidable (s.stillFull = true))
  | .pipe _ => isTrue trivial
  | .on => isTrue trivial
  | .off _ => isTrue trivial
  | .push _ => isTrue trivial
  | .ending => isTrue trivial
  | .write _ _ => isTrue trivial
  | .finishing _ => isTrue trivial
  | .settle _ _ => isTrue trivial
  | .next => isTrue trivial

/-- The frame has nothing to do with a source that is paused. -/
def Frame.idle : Frame D B → Bool
  | .pause (some _) => false
  | .dest _ (_ + 1) => false
  | _ => true

omit [DecidableEq D] in
theorem pending_congr {s s' : State D B} (h : Pending s) (hwaiting : s'.waiting = s.waiting)
    (hstack : s'.stack = s.stack) : Pending s' := by
  cases h with
  | waiting h => exact .waiting (hwaiting ▸ h)
  | pausing h => exact .pausing (hstack ▸ h)
  | draining h => exact .draining (hstack ▸ h)

omit [DecidableEq D] in
theorem pending_push {s : State D B} (h : Pending s) (f : Frame D B) :
    Pending { s with stack := f :: s.stack } := by
  cases h with
  | waiting h => exact .waiting h
  | pausing h => exact .pausing (List.mem_cons_of_mem f h)
  | draining h => exact .draining (List.mem_cons_of_mem f h)

omit [DecidableEq D] in
theorem pending_pop {s : State D B} (h : Pending s) {f : Frame D B} {stack : List (Frame D B)}
    (hstack : s.stack = f :: stack) (hf : f.idle = true) : Pending { s with stack := stack } := by
  cases h with
  | waiting h => exact .waiting h
  | pausing h =>
    rw [hstack] at h
    rcases List.mem_cons.mp h with rfl | h
    · contradiction
    · exact .pausing h
  | draining h =>
    rw [hstack] at h
    rcases List.mem_cons.mp h with rfl | h
    · contradiction
    · exact .draining h

/-- The listeners of a `drain` that is emitted are still to be called. -/
theorem pending_put {s : State D B} (h : Pending s) (d : D) (t : Stream (Bool × B)) (depth : Nat) :
    Pending (s.put d t depth) := by
  rcases put_cases s d t depth with ⟨-, heq⟩ | ⟨-, -, heq⟩ | ⟨-, -, heq⟩ <;> rw [heq]
  · exact pending_congr h rfl rfl
  · cases h with
    | @waiting e h =>
      by_cases he : e = d
      · rw [he] at h
        obtain ⟨n, hn⟩ : ∃ n, s.waiting d = n + 1 := ⟨s.waiting d - 1, by omega⟩
        have hmem : Frame.dest d (n + 1) ∈ Frame.dest d (s.waiting d) :: s.stack := by
          rw [hn]
          exact List.mem_cons_self
        exact .draining hmem
      · refine .waiting (d := e) ?_
        simp only
        rwa [Function.update_of_ne he]
    | pausing h => exact .pausing (List.mem_cons_of_mem _ h)
    | draining h => exact .draining (List.mem_cons_of_mem _ h)
  · cases h with
    | waiting h => exact .waiting h
    | pausing h => exact .pausing (List.mem_cons_of_mem _ h)
    | draining h => exact .draining (List.mem_cons_of_mem _ h)

/-- A stream that has listeners of `drain` goes on writing, or emits `drain` to them. -/
theorem writing_put {s : State D B} {d : D} {t : Stream (Bool × B)} {depth : Nat}
    (h : ∀ e, 0 < s.waiting e → (s.dests e).writing = true) (ht : Moves depth (s.dests d) t) :
    ∀ e, 0 < (s.put d t depth).waiting e → ((s.put d t depth).dests e).writing = true := by
  intro e he
  rw [put_dests]
  by_cases hed : e = d
  · rw [hed] at he ⊢
    rw [Function.update_self]
    by_contra hidle
    rw [Bool.not_eq_true] at hidle
    rcases put_cases s d t depth with ⟨hle, heq⟩ | ⟨-, -, heq⟩ | ⟨-, hhead, heq⟩ <;> rw [heq] at he
    · have hlength := (ht.drained (h d he) hidle).1
      omega
    · simp only [Function.update_self] at he
      omega
    · exact hhead (ht.drained (h d he) hidle).2
  · rw [Function.update_of_ne hed]
    apply h
    rcases put_cases s d t depth with ⟨-, heq⟩ | ⟨-, -, heq⟩ | ⟨-, -, heq⟩ <;> rw [heq] at he
    · exact he
    · simp only at he
      rwa [Function.update_of_ne hed] at he
    · exact he

theorem keepsWaking_put {s : State D B} (h : Wakes s) {d : D} {t : Stream (Bool × B)} {depth : Nat}
    (ht : Moves depth (s.dests d) t) : Wakes (s.put d t depth) := by
  refine ⟨fun hreading hdata => ?_, writing_put h.writing ht⟩
  rw [put_reading] at hreading
  rw [put_data] at hdata
  exact pending_put (h.pending hreading hdata) d t depth

omit [DecidableEq D] in
theorem keepsWaking_push {s : State D B} (h : Wakes s) (f : Frame D B) :
    Wakes { s with stack := f :: s.stack } :=
  ⟨fun hreading hdata => pending_push (h.pending hreading hdata) f, h.writing⟩

omit [DecidableEq D] in
theorem keepsWaking_pop {s : State D B} (h : Wakes s) {f : Frame D B} {stack : List (Frame D B)}
    (hstack : s.stack = f :: stack) (hf : f.idle = true) : Wakes { s with stack := stack } :=
  ⟨fun hreading hdata => pending_pop (h.pending hreading hdata) hstack hf, h.writing⟩

/-- The write that finds the stream full pauses the source. -/
theorem keepsWaking_deliver {s : State D B} (h : Wakes s) (d : D) (b : B) : Wakes (s.deliver d b) := by
  have hwrite : Wakes (s.write d true b).1 := keepsWaking_put h (moves_write _ _)
  rcases deliver_cases s d b with ⟨-, heq⟩ | ⟨-, heq⟩ <;> rw [heq]
  · exact hwrite
  · exact ⟨fun _ _ => .pausing List.mem_cons_self, hwrite.writing⟩

omit [DecidableEq D] in
/-- The first listener of `data` makes the source read. -/
theorem keepsWaking_newListener {s : State D B} (l : Option D) (h : Wakes s) (stack : List (Frame D B))
    (hpending : Pending s → Pending { s with stack := stack }) :
    Wakes ({ s with data := s.data ++ [l], stack := stack } : State D B).newListener := by
  unfold State.newListener
  split_ifs with hlength
  · refine ⟨fun hreading => ?_, h.writing⟩
    cases hreading
  · refine ⟨fun hreading _ => ?_, h.writing⟩
    have hdata : s.data ≠ [] := by
      intro hdata
      simp [hdata] at hlength
    exact pending_congr (hpending (h.pending hreading hdata)) rfl rfl

theorem keepsWaking_step (s : State D B) (a : Act D B) (s' : State D B) (h : Wakes s) (hfull : stillFull s a)
    (hstep : step s a = some s') : Wakes s' := by
  cases a with
  | pipe d =>
    obtain rfl := Option.some.inj hstep
    exact keepsWaking_newListener (some d) h (.pipe d :: s.stack) fun h => pending_push h _
  | on =>
    obtain rfl := Option.some.inj hstep
    exact keepsWaking_newListener none h s.stack id
  | off n =>
    obtain rfl := Option.some.inj hstep
    have hdata : s.data = [] → (if s.data[n]? = some none then s.data.eraseIdx n else s.data) = [] := by
      intro hdata
      simp [hdata]
    simp only [State.off, State.removeListener]
    split_ifs with hget hnil hnil
    · exact ⟨fun _ hne => absurd hnil hne, h.writing⟩
    · refine ⟨fun hreading _ => ?_, h.writing⟩
      rw [if_pos hget] at hdata
      exact pending_congr (h.pending hreading fun hnil' => hnil (hdata hnil')) rfl rfl
    · exact ⟨fun _ hne => absurd hnil hne, h.writing⟩
    · exact h
  | push b =>
    obtain rfl := Option.some.inj hstep
    have hpushed := keepsWaking_push h (.emit b s.data)
    exact ⟨fun hreading hdata => pending_congr (hpushed.pending hreading hdata) rfl rfl, h.writing⟩
  | ending =>
    obtain rfl := Option.some.inj hstep
    exact keepsWaking_push h _
  | write d b =>
    obtain rfl := Option.some.inj hstep
    exact keepsWaking_put h (moves_write _ _)
  | finishing d =>
    obtain rfl := Option.some.inj hstep
    exact keepsWaking_put h (moves_finishing _).1
  | settle d rejected =>
    obtain ⟨t, ht, rfl⟩ := Option.map_eq_some_iff.mp hstep
    exact keepsWaking_put h (moves_settle ht).1
  | next =>
    simp only [step, State.next] at hstep
    split at hstep
    · rename_i b d rest stack hstack
      obtain rfl := Option.some.inj hstep
      exact keepsWaking_deliver (keepsWaking_push (keepsWaking_pop h hstack rfl) _) d b
    · rename_i b rest stack hstack
      obtain rfl := Option.some.inj hstep
      exact keepsWaking_push (keepsWaking_push (keepsWaking_pop h hstack rfl) _) _
    · rename_i b stack hstack
      obtain rfl := Option.some.inj hstep
      exact keepsWaking_pop h hstack rfl
    · rename_i d rest stack hstack
      obtain rfl := Option.some.inj hstep
      exact keepsWaking_put (keepsWaking_push (keepsWaking_pop h hstack rfl) _) (moves_finishing _).1
    · rename_i stack hstack
      obtain rfl := Option.some.inj hstep
      exact keepsWaking_pop h hstack rfl
    · rename_i d stack hstack
      obtain rfl := Option.some.inj hstep
      have hpop := keepsWaking_pop h hstack rfl
      exact ⟨fun hreading hdata => pending_congr (hpop.pending hreading hdata) rfl rfl, h.writing⟩
    · obtain rfl := Option.some.inj hstep
      refine ⟨fun hreading => ?_, h.writing⟩
      cases hreading
    · contradiction
  | returns outcome =>
    simp only [step, State.returns] at hstep
    simp only [stillFull, State.stillFull] at hfull
    split at hstep
    · rename_i stack hstack
      obtain rfl := Option.some.inj hstep
      exact keepsWaking_pop h hstack rfl
    · rename_i stack hstack
      obtain rfl := Option.some.inj hstep
      exact keepsWaking_pop h hstack rfl
    · rename_i stack hstack
      obtain rfl := Option.some.inj hstep
      exact keepsWaking_pop h hstack rfl
    · rename_i d stack hstack
      obtain rfl := Option.some.inj hstep
      rw [hstack] at hfull
      refine ⟨fun _ _ => .waiting (d := d) (by simp), fun e he => ?_⟩
      by_cases hed : e = d
      · rw [hed]
        exact hfull
      · simp only [Function.update_of_ne hed] at he
        exact h.writing e he
    · rename_i d stack hstack
      obtain ⟨t, ht, rfl⟩ := Option.map_eq_some_iff.mp hstep
      exact keepsWaking_put (keepsWaking_pop h hstack rfl) (moves_returns ht).2.1
    · contradiction

/-- The source is not left paused: while it is, it will be told to read, and it is not when no code runs
and every promise is settled. -/
structure NeverStuck (s : State D B) : Prop where
  pending : s.reading = false → s.data ≠ [] → Pending s
  rest : AtRest s → s.data ≠ [] → s.reading = true

theorem Wakes.neverStuck {s : State D B} (h : Wakes s) (hkept : Kept s) : NeverStuck s := by
  refine ⟨h.pending, fun ⟨hstack, hunsettled⟩ hdata => ?_⟩
  by_contra hreading
  rw [Bool.not_eq_true] at hreading
  cases h.pending hreading hdata with
  | @waiting d hd =>
    have hframes := hkept.frames d
    have hbusy := (hkept.streams d).busy
    rw [hstack, List.countP_nil] at hframes
    rw [List.eq_nil_of_length_eq_zero hframes.symm, hunsettled d, h.writing d hd] at hbusy
    simp at hbusy
  | pausing hmem =>
    rw [hstack] at hmem
    cases hmem
  | draining hmem =>
    rw [hstack] at hmem
    cases hmem

/-- Whatever is piped, pushed, written and settled, a source that a full stream has paused is told to read
again, if no `really_pause` makes the stream drain that was full. -/
theorem pipe_resumes (as : List (Act D B)) (s : State D B) (hfull : Meets step stillFull .create as)
    (h : run step .create as = some s) : NeverStuck s := by
  have hwakes : Wakes s := by
    refine invariant_of_meets keepsWaking_step hfull h ⟨fun _ hdata => absurd rfl hdata, fun d hd => ?_⟩
    exact absurd hd (Nat.lt_irrefl 0)
  exact hwakes.neverStuck (invariant kept_step h kept_create)

/-- The first of seven buffers is being written; the seventh finds six waiting. -/
def sevenBuffers : List (Act Unit Nat) :=
  [.pipe (), .returns none, .next, .push 1, .next, .returns none, .next]
    ++ [2, 3, 4, 5, 6].flatMap (fun n => [.push n, .next, .next])
    ++ [.push 7, .next]

/-- The writes are settled, and the source reads again. -/
def drained : List (Act Unit Nat) :=
  sevenBuffers ++ [.returns none, .next]
    ++ (List.replicate 6 [.settle () false, .returns none]).flatten
    ++ [.settle () false, .next, .returns none, .returns none]

theorem drained_resumes :
    (run step .create sevenBuffers).map (fun s => (s.reading, (s.dests ()).queue)) =
        some (false, [2, 3, 4, 5, 6, 7].map fun n => (true, n)) ∧
      (run step .create drained).map (fun s => (s.reading, s.called ())) = some (true, [1, 2, 3, 4, 5, 6, 7]) ∧
      ∀ s, run step .create drained = some s → NeverStuck s :=
  ⟨by decide, by decide, fun s h => pipe_resumes drained s (by decide) h⟩

/-! ## One stream -/

/-- How often the frame will tell the source to read. -/
def Frame.wakes (d : D) : Frame D B → Nat
  | .pause (some e) => if e = d then 1 else 0
  | .dest e resume => if e = d then resume else 0
  | _ => 0

def State.wakes (s : State D B) (d : D) : Nat := s.waiting d + (s.stack.map (Frame.wakes d)).sum

/-- The frame has to do with no other stream that is piped to. -/
def Frame.only (d : D) : Frame D B → Prop
  | .emit _ rest => ∀ e, some e ∈ rest → e = d
  | .pause (some e) => e = d
  | .dest e resume => e ≠ d → resume = 0
  | _ => True

/-- Only one stream is piped to, once, and only the pipe writes to it; nothing is pushed while the source
is paused, or inside of a push. -/
def alone (d : D) (s : State D B) : Act D B → Prop
  | .pipe e => e = d ∧ some d ∉ s.data
  | .push _ => s.reading = true ∧ ∀ f ∈ s.stack, f.isEmit = false
  | .write e _ => e ≠ d
  | _ => True

instance [DecidableEq B] (d : D) (s : State D B) : ∀ a : Act D B, Decidable (alone d s a)
  | .pipe e => inferInstanceAs (Decidable (e = d ∧ some d ∉ s.data))
  | .push _ => inferInstanceAs (Decidable (s.reading = true ∧ ∀ f ∈ s.stack, f.isEmit = false))
  | .write e _ => inferInstanceAs (Decidable (e ≠ d))
  | .on => isTrue trivial
  | .off _ => isTrue trivial
  | .ending => isTrue trivial
  | .finishing _ => isTrue trivial
  | .settle _ _ => isTrue trivial
  | .next => isTrue trivial
  | .returns _ => isTrue trivial

/-- The source is told to read at most once more, and not while it reads; what is still owed to the stream
finds room; and nothing waits when `drain` is emitted. -/
structure Bounded (d : D) (s : State D B) : Prop where
  one : s.wakes d ≤ 1
  paused : 0 < s.wakes d → s.reading = false
  owing : s.owed d ≠ [] → s.wakes d = 0 ∧ (s.dests d).queue.length ≤ 5
  owed : (s.owed d).length ≤ 1
  reading : s.reading = true → (s.dests d).queue.length ≤ 5
  queue : (s.dests d).queue.length ≤ 6
  drained : ∀ resume, .dest d (resume + 1) ∈ s.stack → (s.dests d).queue = []
  fresh : some d ∉ s.data → s.wakes d = 0 ∧ s.owed d = [] ∧ (s.dests d).queue = []
  count : s.data.count (some d) ≤ 1
  data : ∀ e, some e ∈ s.data → e = d
  waiting : ∀ e, e ≠ d → s.waiting e = 0
  frames : ∀ f ∈ s.stack, f.only d

theorem bounded_create (d : D) : Bounded d (State.create : State D B) where
  one := Nat.zero_le 1
  paused := fun h => absurd h (Nat.lt_irrefl 0)
  owing := fun h => absurd rfl h
  owed := Nat.zero_le 1
  reading := fun h => by cases h
  queue := Nat.zero_le 6
  drained := fun _ h => by cases h
  fresh := fun _ => ⟨rfl, rfl, rfl⟩
  count := Nat.zero_le 1
  data := fun _ h => by cases h
  waiting := fun _ _ => rfl
  frames := fun _ h => by cases h

theorem wakes_cons (s : State D B) (d : D) {f : Frame D B} {stack : List (Frame D B)}
    (hstack : s.stack = f :: stack) :
    s.wakes d = f.wakes d + ({ s with stack := stack } : State D B).wakes d := by
  simp only [State.wakes, hstack, List.map_cons, List.sum_cons]
  omega

/-- The listeners that a `drain` takes are on the stack. -/
theorem wakes_put (s : State D B) (d e : D) (t : Stream (Bool × B)) (depth : Nat) :
    (s.put e t depth).wakes d = s.wakes d := by
  rcases put_cases s e t depth with ⟨-, h⟩ | ⟨-, -, h⟩ | ⟨-, -, h⟩ <;> rw [h]
  · rfl
  · simp only [State.wakes, List.map_cons, List.sum_cons, Frame.wakes]
    by_cases he : e = d
    · rw [he, Function.update_self, if_pos rfl, Nat.zero_add]
    · rw [Function.update_of_ne (Ne.symm he), if_neg he, Nat.zero_add]
  · simp only [State.wakes, List.map_cons, List.sum_cons, Frame.wakes, ite_self, Nat.zero_add]

/-- A stream is put back: no other stream will tell the source to read. -/
theorem only_put {s : State D B} {d : D} (h : Bounded d s) (e : D) (t : Stream (Bool × B)) (depth : Nat) :
    (∀ c, c ≠ d → (s.put e t depth).waiting c = 0) ∧ ∀ f ∈ (s.put e t depth).stack, f.only d := by
  rcases put_cases s e t depth with ⟨-, heq⟩ | ⟨-, -, heq⟩ | ⟨-, -, heq⟩ <;> rw [heq]
  · exact ⟨h.waiting, h.frames⟩
  · refine ⟨fun c hc => ?_, fun f hf => ?_⟩
    · by_cases hce : c = e
      · rw [hce]
        exact Function.update_self ..
      · simp only
        rw [Function.update_of_ne hce]
        exact h.waiting c hc
    · rcases List.mem_cons.mp hf with rfl | hf
      · exact h.waiting e
      · exact h.frames f hf
  · refine ⟨h.waiting, fun f hf => ?_⟩
    rcases List.mem_cons.mp hf with rfl | hf
    · exact fun _ => rfl
    · exact h.frames f hf

theorem bounded_put {s : State D B} {d e : D} {t : Stream (Bool × B)} {depth : Nat} (h : Bounded d s)
    (hmoves : Moves depth (s.dests e) t) (hquiet : d = e → t.queue.length ≤ (s.dests e).queue.length) :
    Bounded d (s.put e t depth) := by
  have hqueue : ((s.put e t depth).dests d).queue.length ≤ (s.dests d).queue.length := by
    rw [put_dests]
    by_cases he : d = e
    · rw [he, Function.update_self]
      exact hquiet he
    · apply Nat.le_of_eq
      rw [Function.update_of_ne he]
  have hempty : (s.dests d).queue = [] → ((s.put e t depth).dests d).queue = [] := by
    intro hnil
    rw [hnil] at hqueue
    exact List.eq_nil_of_length_eq_zero (Nat.le_zero.mp hqueue)
  refine ⟨?_, ?_, ?_, ?_, ?_, Nat.le_trans hqueue h.queue, ?_, ?_, ?_, ?_, ?_, ?_⟩
  · rw [wakes_put]
    exact h.one
  · rw [wakes_put, put_reading]
    exact h.paused
  · rw [wakes_put, owed_put]
    intro howed
    exact ⟨(h.owing howed).1, Nat.le_trans hqueue (h.owing howed).2⟩
  · rw [owed_put]
    exact h.owed
  · rw [put_reading]
    intro hreading
    exact Nat.le_trans hqueue (h.reading hreading)
  · intro resume hmem
    rcases put_cases s e t depth with ⟨-, heq⟩ | ⟨hlt, hdrain, heq⟩ | ⟨-, -, heq⟩ <;> rw [heq] at hmem
    · exact hempty (h.drained resume hmem)
    · rcases List.mem_cons.mp hmem with hsame | hmem
      · obtain ⟨rfl, -⟩ := Frame.dest.inj hsame
        rw [put_dests, Function.update_self]
        exact hmoves.empty (by have := hmoves.grows; omega) hdrain
      · exact hempty (h.drained resume hmem)
    · rcases List.mem_cons.mp hmem with hsame | hmem
      · obtain ⟨-, hzero⟩ := Frame.dest.inj hsame
        contradiction
      · exact hempty (h.drained resume hmem)
  · rw [put_data, wakes_put, owed_put]
    intro hfresh
    obtain ⟨hwakes, howed, hnil⟩ := h.fresh hfresh
    exact ⟨hwakes, howed, hempty hnil⟩
  · rw [put_data]
    exact h.count
  · rw [put_data]
    exact h.data
  · exact (only_put h e t depth).1
  · exact (only_put h e t depth).2

/-- The frame neither owes anything nor tells the source to read. -/
structure Frame.Bare (d : D) (f : Frame D B) : Prop where
  wakes : f.wakes d = 0
  owed : f.owed d = []
  only : f.only d

theorem bounded_push {s : State D B} {d : D} (h : Bounded d s) {f : Frame D B} (hf : f.Bare d) :
    Bounded d { s with stack := f :: s.stack } := by
  have hwakes : ({ s with stack := f :: s.stack } : State D B).wakes d = s.wakes d := by
    rw [wakes_cons _ d rfl, hf.wakes, Nat.zero_add]
  have howed : ({ s with stack := f :: s.stack } : State D B).owed d = s.owed d := by
    rw [owed_cons _ d rfl, hf.owed]
    rfl
  refine ⟨?_, ?_, ?_, ?_, h.reading, h.queue, ?_, ?_, h.count, h.data, h.waiting, ?_⟩
  · rw [hwakes]
    exact h.one
  · rw [hwakes]
    exact h.paused
  · rw [hwakes, howed]
    exact h.owing
  · rw [howed]
    exact h.owed
  · intro resume hmem
    rcases List.mem_cons.mp hmem with rfl | hmem
    · have hzero := hf.wakes
      simp [Frame.wakes] at hzero
    · exact h.drained resume hmem
  · rw [hwakes, howed]
    exact h.fresh
  · intro g hg
    rcases List.mem_cons.mp hg with rfl | hg
    · exact hf.only
    · exact h.frames g hg

theorem bounded_pop {s : State D B} {d : D} (h : Bounded d s) {f : Frame D B} {stack : List (Frame D B)}
    (hstack : s.stack = f :: stack) (hwakes : f.wakes d = 0) (howed : f.owed d = []) :
    Bounded d { s with stack := stack } := by
  have hsame : s.wakes d = ({ s with stack := stack } : State D B).wakes d := by
    rw [wakes_cons s d hstack, hwakes, Nat.zero_add]
  have hsame' : s.owed d = ({ s with stack := stack } : State D B).owed d := by
    rw [owed_cons s d hstack, howed]
    rfl
  have hmem : ∀ g ∈ stack, g ∈ s.stack := fun g hg => by rw [hstack]; exact List.mem_cons_of_mem f hg
  refine ⟨?_, ?_, ?_, ?_, h.reading, h.queue, fun resume hg => h.drained resume (hmem _ hg), ?_, h.count,
    h.data, h.waiting, fun g hg => h.frames g (hmem g hg)⟩
  · rw [← hsame]
    exact h.one
  · rw [← hsame]
    exact h.paused
  · rw [← hsame, ← hsame']
    exact h.owing
  · rw [← hsame']
    exact h.owed
  · rw [← hsame, ← hsame']
    exact h.fresh

/-- A frame takes the place of one that owes the same. -/
theorem bounded_swap {s : State D B} {d : D} (h : Bounded d s) {f g : Frame D B} {stack : List (Frame D B)}
    (hstack : s.stack = f :: stack) (hf : f.wakes d = 0) (hg : g.wakes d = 0) (howed : g.owed d = f.owed d)
    (honly : g.only d) : Bounded d { s with stack := g :: stack } := by
  have hwakes : ({ s with stack := g :: stack } : State D B).wakes d = s.wakes d := by
    rw [wakes_cons _ d rfl, wakes_cons s d hstack, hf, hg]
  have hsame : ({ s with stack := g :: stack } : State D B).owed d = s.owed d := by
    rw [owed_cons _ d rfl, owed_cons s d hstack, howed]
  have hmem : ∀ c ∈ stack, c ∈ s.stack := fun c hc => by rw [hstack]; exact List.mem_cons_of_mem f hc
  refine ⟨?_, ?_, ?_, ?_, h.reading, h.queue, fun resume hc => ?_, ?_, h.count, h.data, h.waiting,
    fun c hc => ?_⟩
  · rw [hwakes]
    exact h.one
  · rw [hwakes]
    exact h.paused
  · rw [hwakes, hsame]
    exact h.owing
  · rw [hsame]
    exact h.owed
  · rcases List.mem_cons.mp hc with rfl | hc
    · simp [Frame.wakes] at hg
    · exact h.drained resume (hmem _ hc)
  · rw [hwakes, hsame]
    exact h.fresh
  · rcases List.mem_cons.mp hc with rfl | hc
    · exact honly
    · exact h.frames c (hmem c hc)

theorem bounded_paused {s : State D B} {d : D} (h : Bounded d s) : Bounded d { s with reading := false } :=
  ⟨h.one, fun _ => rfl, h.owing, h.owed, fun hreading => absurd hreading Bool.false_ne_true, h.queue,
    h.drained, h.fresh, h.count, h.data, h.waiting, h.frames⟩

theorem bounded_ends {s : State D B} {d : D} (h : Bounded d s) (ends : List D) :
    Bounded d { s with ends := ends } :=
  ⟨h.one, h.paused, h.owing, h.owed, h.reading, h.queue, h.drained, h.fresh, h.count, h.data, h.waiting,
    h.frames⟩

/-- Nothing that is to come depends on whether the source reads. -/
theorem bounded_reading {s : State D B} {d : D} (h : Bounded d s) (hwakes : s.wakes d = 0)
    (hqueue : (s.dests d).queue.length ≤ 5) (reading : Bool) : Bounded d { s with reading := reading } :=
  ⟨h.one, fun hpos => absurd hwakes (Nat.ne_of_gt hpos), h.owing, h.owed, fun _ => hqueue, h.queue, h.drained,
    h.fresh, h.count, h.data, h.waiting, h.frames⟩

omit [DecidableEq D] in
/-- A write that waits finds the queue with one buffer more. -/
theorem queue_write (t : Stream B) (b : B) (hqueue : t.queue.length ≤ 5) :
    (t.write b).1.queue.length ≤ 6 ∧ ((t.write b).2 = true → (t.write b).1.queue.length ≤ 5) := by
  unfold Stream.write
  cases hwriting : t.writing with
  | false =>
    simp only [Stream.startWrite, Bool.not_false, if_true]
    omega
  | true =>
    simp only [Bool.not_true, Bool.false_eq_true, if_false, List.length_append, List.length_singleton,
      decide_eq_true_eq]
    omega

theorem wakes_pos_of_mem {s : State D B} {d : D} {resume : Nat} (h : .dest d (resume + 1) ∈ s.stack) :
    0 < s.wakes d := by
  have hmem : resume + 1 ∈ s.stack.map (Frame.wakes d) :=
    List.mem_map.mpr ⟨_, h, by rw [Frame.wakes, if_pos rfl]⟩
  have hpos : 0 < (s.stack.map (Frame.wakes d)).sum :=
    List.sum_pos_iff_exists_pos_nat.mpr ⟨resume + 1, hmem, Nat.succ_pos resume⟩
  rw [State.wakes]
  omega

/-- The last buffer that is owed to the stream is written; if it is the sixth that waits, the source is
paused. -/
theorem bounded_deliver {s : State D B} {d : D} (h : Bounded d s) (b : B) (howed : s.owed d = [])
    (hwakes : s.wakes d = 0) (hqueue : (s.dests d).queue.length ≤ 5) (hdata : some d ∈ s.data) :
    Bounded d (s.deliver d b) := by
  have hdest : ((s.write d true b).1.dests d) = ((s.dests d).write (true, b)).1 := by
    rw [State.write, put_dests, Function.update_self]
  obtain ⟨hsix, hfive⟩ := queue_write (s.dests d) (true, b) hqueue
  rw [← hdest] at hsix hfive
  have hwakes' : (s.write d true b).1.wakes d = 0 := (wakes_put s d d _ _).trans hwakes
  have howed' : (s.write d true b).1.owed d = [] := (owed_put s d d _ _).trans howed
  have hdata' : (s.write d true b).1.data = s.data := put_data s d _ _
  obtain ⟨hwaiting, hframes⟩ := only_put h d ((s.dests d).write (true, b)).1 (s.dests d).stack.length
  rcases deliver_cases s d b with ⟨hok, heq⟩ | ⟨-, heq⟩ <;> rw [heq]
  · have hfive := hfive hok
    refine ⟨?_, fun hpos => ?_, fun hne => absurd howed' hne, ?_, fun _ => hfive, hsix,
      fun resume hmem => ?_, fun hfresh => ?_, ?_, ?_, hwaiting, hframes⟩
    · omega
    · omega
    · rw [howed']
      exact Nat.zero_le 1
    · have hpos := wakes_pos_of_mem hmem
      omega
    · rw [hdata'] at hfresh
      exact absurd hdata hfresh
    · rw [hdata']
      exact h.count
    · rw [hdata']
      exact h.data
  · have hone : ({ (s.write d true b).1 with
        reading := false
        stack := .pause (some d) :: (s.write d true b).1.stack } : State D B).wakes d = 1 := by
      rw [wakes_cons _ d rfl, Frame.wakes, if_pos rfl]
      exact congrArg (1 + ·) hwakes'
    refine ⟨Nat.le_of_eq hone, fun _ => rfl, fun hne => absurd howed' hne, ?_, fun hreading => ?_, hsix,
      fun resume hmem => ?_, fun hfresh => ?_, ?_, ?_, hwaiting, fun f hf => ?_⟩
    · exact Nat.le_trans (Nat.le_of_eq (congrArg List.length howed')) (Nat.zero_le 1)
    · cases hreading
    · rcases List.mem_cons.mp hmem with hpause | hmem
      · cases hpause
      · have hpos := wakes_pos_of_mem hmem
        omega
    · simp only [hdata'] at hfresh
      exact absurd hdata hfresh
    · simp only [hdata']
      exact h.count
    · simp only [hdata']
      exact h.data
    · rcases List.mem_cons.mp hf with rfl | hf
      · rfl
      · exact hframes f hf

/-- Where there is no listener of the stream yet, the source may be told to read. -/
theorem bounded_newListener {s : State D B} {d : D} (h : Bounded d s)
    (hfresh : s.data.length = 1 → s.wakes d = 0 ∧ (s.dests d).queue.length ≤ 5) :
    Bounded d s.newListener := by
  unfold State.newListener
  split_ifs with hlength
  · obtain ⟨hwakes, hqueue⟩ := hfresh hlength
    exact bounded_push (bounded_reading h hwakes hqueue true) ⟨rfl, rfl, trivial⟩
  · exact h

theorem bounded_removeListener {s : State D B} {d : D} (h : Bounded d s) : Bounded d s.removeListener := by
  unfold State.removeListener
  split_ifs
  · exact bounded_push (bounded_paused h) ⟨rfl, rfl, trivial⟩
  · exact h

/-- The stream that is owed a buffer is owed no other, and has room for it. -/
theorem bounded_next {s : State D B} {d : D} (h : Bounded d s) {b : B} {rest : List (Option D)}
    {stack : List (Frame D B)} (hstack : s.stack = .emit b (some d :: rest) :: stack) :
    Bounded d ({ s with stack := .emit b rest :: stack }.deliver d b) := by
  let s₀ : State D B := { s with stack := .emit b rest :: stack }
  have howed : s.owed d = b :: s₀.owed d := by
    rw [owed_cons s d hstack, owed_cons s₀ d rfl]
    simp [Frame.owed, List.replicate_succ]
  have hlength := h.owed
  rw [howed, List.length_cons] at hlength
  have hnil : s₀.owed d = [] := List.eq_nil_of_length_eq_zero (by omega)
  obtain ⟨hwakes, hqueue⟩ := h.owing (by rw [howed]; exact List.cons_ne_nil _ _)
  have hwakes' : s₀.wakes d = 0 := by
    rw [wakes_cons s d hstack] at hwakes
    rw [wakes_cons s₀ d rfl]
    exact hwakes
  have hdata : some d ∈ s.data := by
    by_contra hfresh
    have hnone := (h.fresh hfresh).2.1
    rw [howed] at hnone
    cases hnone
  have hframes : ∀ f ∈ s₀.stack, f.only d := by
    intro f hf
    rcases List.mem_cons.mp hf with rfl | hf
    · intro e he
      exact h.frames (.emit b (some d :: rest)) (by simp [hstack]) e (List.mem_cons_of_mem _ he)
    · exact h.frames f (by rw [hstack]; exact List.mem_cons_of_mem _ hf)
  have hbounded : Bounded d s₀ := by
    refine ⟨?_, fun hpos => ?_, fun hne => absurd hnil hne, ?_, h.reading, h.queue, fun resume hmem => ?_,
      fun hfresh => absurd hdata hfresh, h.count, h.data, h.waiting, hframes⟩
    · omega
    · omega
    · rw [hnil]
      exact Nat.zero_le 1
    · have hpos := wakes_pos_of_mem hmem
      omega
  exact bounded_deliver hbounded b hnil hwakes' hqueue hdata

/-- The listener of `drain` finds nothing waiting. -/
theorem bounded_resume {s : State D B} {d e : D} (h : Bounded d s) {resume : Nat} {stack : List (Frame D B)}
    (hstack : s.stack = .dest e (resume + 1) :: stack) :
    Bounded d { s with stack := .read :: .dest e resume :: stack, reading := true } := by
  have hed : e = d := by
    by_contra hne
    have hzero := h.frames (.dest e (resume + 1)) (by simp [hstack]) hne
    contradiction
  subst hed
  have hempty := h.drained resume (by simp [hstack])
  have hone := h.one
  rw [wakes_cons s e hstack, Frame.wakes, if_pos rfl] at hone
  have hwakes : ({ s with stack := .read :: .dest e resume :: stack, reading := true } : State D B).wakes e = 0 := by
    simp only [State.wakes, List.map_cons, List.sum_cons, Frame.wakes, if_true] at hone ⊢
    omega
  have howed : ({ s with stack := .read :: .dest e resume :: stack, reading := true } : State D B).owed e
      = s.owed e := by
    rw [owed_cons s e hstack]
    rfl
  have hqueue : (s.dests e).queue.length ≤ 5 := by simp [hempty]
  refine ⟨by omega, fun hpos => ?_, fun _ => ⟨hwakes, hqueue⟩, ?_, fun _ => hqueue, h.queue, fun _ _ => hempty,
    fun hfresh => ?_, h.count, h.data, h.waiting, fun f hf => ?_⟩
  · omega
  · rw [howed]
    exact h.owed
  · refine ⟨hwakes, ?_, hempty⟩
    rw [howed]
    exact (h.fresh hfresh).2.1
  · rcases List.mem_cons.mp hf with rfl | hf
    · trivial
    rcases List.mem_cons.mp hf with rfl | hf
    · exact fun hne => absurd rfl hne
    · exact h.frames f (by rw [hstack]; exact List.mem_cons_of_mem _ hf)

/-- The listener of `drain` is registered. -/
theorem bounded_once {s : State D B} {d : D} (h : Bounded d s) {stack : List (Frame D B)}
    (hstack : s.stack = .pause (some d) :: stack) :
    Bounded d { s with stack := stack, waiting := Function.update s.waiting d (s.waiting d + 1) } := by
  have hwakes : ({ s with
      stack := stack, waiting := Function.update s.waiting d (s.waiting d + 1) } : State D B).wakes d
        = s.wakes d := by
    rw [wakes_cons s d hstack, Frame.wakes, if_pos rfl]
    simp only [State.wakes, Function.update_self]
    omega
  have howed : ({ s with
      stack := stack, waiting := Function.update s.waiting d (s.waiting d + 1) } : State D B).owed d
        = s.owed d := by
    rw [owed_cons s d hstack]
    rfl
  have hmem : ∀ f ∈ stack, f ∈ s.stack := fun f hf => by rw [hstack]; exact List.mem_cons_of_mem _ hf
  refine ⟨?_, ?_, ?_, ?_, h.reading, h.queue, fun resume hf => h.drained resume (hmem _ hf), ?_, h.count, h.data,
    fun e he => ?_, fun f hf => h.frames f (hmem f hf)⟩
  · rw [hwakes]
    exact h.one
  · rw [hwakes]
    exact h.paused
  · rw [hwakes, howed]
    exact h.owing
  · rw [howed]
    exact h.owed
  · rw [hwakes, howed]
    exact h.fresh
  · simp only
    rw [Function.update_of_ne he]
    exact h.waiting e he

/-- A change of the listeners of `data` only. -/
theorem bounded_data {s : State D B} {d : D} (h : Bounded d s) {data : List (Option D)}
    (hfresh : some d ∉ data → some d ∉ s.data) (hcount : data.count (some d) ≤ 1)
    (hdata : ∀ e, some e ∈ data → e = d) : Bounded d { s with data := data } :=
  ⟨h.one, h.paused, h.owing, h.owed, h.reading, h.queue, h.drained, fun hnew => h.fresh (hfresh hnew), hcount,
    hdata, h.waiting, h.frames⟩

theorem bounded_pipe {s : State D B} {d : D} (h : Bounded d s) (hnew : some d ∉ s.data) :
    Bounded d (s.pipe d) := by
  obtain ⟨hwakes, howed, hnil⟩ := h.fresh hnew
  have hdata : Bounded d { s with data := s.data ++ [some d] } := by
    refine bounded_data h (fun hfresh => ?_) ?_ fun c hc => ?_
    · simp at hfresh
    · rw [List.count_append, List.count_eq_zero_of_not_mem hnew]
      simp
    · rcases List.mem_append.mp hc with hc | hc
      · exact h.data c hc
      · exact Option.some.inj (List.mem_singleton.mp hc)
  refine bounded_newListener (bounded_push hdata (f := .pipe d) ⟨rfl, rfl, trivial⟩) fun _ => ⟨?_, ?_⟩
  · rw [wakes_cons _ d rfl]
    exact (Nat.zero_add _).trans hwakes
  · simp [hnil]

theorem bounded_on {s : State D B} {d : D} (h : Bounded d s) : Bounded d s.on := by
  have hdata : Bounded d { s with data := s.data ++ [none] } := by
    refine bounded_data h (fun hfresh hmem => hfresh (List.mem_append_left _ hmem)) ?_ fun c hc => ?_
    · rw [List.count_append]
      simpa using h.count
    · rcases List.mem_append.mp hc with hc | hc
      · exact h.data c hc
      · cases List.mem_singleton.mp hc
  refine bounded_newListener hdata fun hlength => ?_
  have hnil : s.data = [] := by
    rw [List.length_append, List.length_singleton] at hlength
    exact List.eq_nil_of_length_eq_zero (by omega)
  obtain ⟨hwakes, -, hempty⟩ := h.fresh (by simp [hnil])
  exact ⟨hwakes, by simp [hempty]⟩

theorem bounded_off {s : State D B} {d : D} (h : Bounded d s) (n : Nat) : Bounded d (s.off n) := by
  have hdata : Bounded d { s with data := if s.data[n]? = some none then s.data.eraseIdx n else s.data } := by
    split_ifs with hget
    · refine bounded_data h (fun hfresh hmem => hfresh ?_) ?_ fun e he => h.data e (List.mem_of_mem_eraseIdx he)
      · obtain ⟨i, hi⟩ := List.mem_iff_getElem?.mp hmem
        refine List.mem_eraseIdx_iff_getElem?.mpr ⟨i, ?_, hi⟩
        rintro rfl
        rw [hget] at hi
        cases Option.some.inj hi
      · exact Nat.le_trans ((List.eraseIdx_sublist ..).count_le _) h.count
    · exact h
  exact bounded_removeListener hdata

/-- The stream comes to be owed the buffer that is pushed, while no other is and nothing waits to resume. -/
theorem bounded_emit {s : State D B} {d : D} (h : Bounded d s) (b : B) (hreading : s.reading = true)
    (hcalm : ∀ f ∈ s.stack, f.isEmit = false) : Bounded d (s.push b) := by
  have hwakes : s.wakes d = 0 := by
    by_contra hne
    rw [h.paused (Nat.pos_of_ne_zero hne)] at hreading
    cases hreading
  have hwakes' : (s.push b).wakes d = s.wakes d := by
    rw [wakes_cons (s.push b) d rfl]
    exact Nat.zero_add _
  have howed : (s.push b).owed d = List.replicate (s.data.count (some d)) b := by
    rw [(accounts_push s b d).2.2, owed_of_calm hcalm, List.append_nil]
  refine ⟨?_, fun hpos => ?_, fun _ => ⟨?_, h.reading hreading⟩, ?_, h.reading, h.queue, fun resume hmem => ?_,
    fun hfresh => ?_, h.count, h.data, h.waiting, fun f hf => ?_⟩
  · omega
  · omega
  · omega
  · rw [howed, List.length_replicate]
    exact h.count
  · rcases List.mem_cons.mp hmem with hemit | hmem
    · cases hemit
    · exact h.drained resume hmem
  · refine ⟨hwakes'.trans hwakes, ?_, (h.fresh hfresh).2.2⟩
    have hnone : some d ∉ s.data := hfresh
    rw [howed, List.count_eq_zero_of_not_mem hnone]
    rfl
  · rcases List.mem_cons.mp hf with rfl | hf
    · exact h.data
    · exact h.frames f hf

theorem bounded_step (d : D) (s : State D B) (a : Act D B) (s' : State D B) (h : Bounded d s)
    (halone : alone d s a) (hstep : step s a = some s') : Bounded d s' := by
  cases a with
  | pipe e =>
    obtain ⟨rfl, hnew⟩ := halone
    obtain rfl := Option.some.inj hstep
    exact bounded_pipe h hnew
  | on =>
    obtain rfl := Option.some.inj hstep
    exact bounded_on h
  | off n =>
    obtain rfl := Option.some.inj hstep
    exact bounded_off h n
  | push b =>
    obtain rfl := Option.some.inj hstep
    obtain ⟨hreading, hcalm⟩ := halone
    exact bounded_emit h b hreading hcalm
  | ending =>
    obtain rfl := Option.some.inj hstep
    exact bounded_push h ⟨rfl, rfl, trivial⟩
  | write e b =>
    obtain rfl := Option.some.inj hstep
    exact bounded_put h (moves_write _ _) fun hde => absurd hde.symm halone
  | finishing e =>
    obtain rfl := Option.some.inj hstep
    exact bounded_put h (moves_finishing _).1 fun _ => (moves_finishing _).2.queue
  | settle e rejected =>
    obtain ⟨t, ht, rfl⟩ := Option.map_eq_some_iff.mp hstep
    exact bounded_put h (moves_settle ht).1 fun _ => (moves_settle ht).2.queue
  | next =>
    simp only [step, State.next] at hstep
    split at hstep
    · rename_i b e rest stack hstack
      obtain rfl := Option.some.inj hstep
      obtain rfl : e = d := h.frames (.emit b (some e :: rest)) (by simp [hstack]) e List.mem_cons_self
      exact bounded_next h hstack
    · rename_i b rest stack hstack
      obtain rfl := Option.some.inj hstep
      have hrest : ∀ e, some e ∈ rest → e = d := fun e he =>
        h.frames (.emit b (none :: rest)) (by simp [hstack]) e (List.mem_cons_of_mem _ he)
      have hswap := bounded_swap (g := .emit b rest) h hstack rfl rfl (by simp [Frame.owed]) hrest
      exact bounded_push hswap ⟨rfl, rfl, trivial⟩
    · rename_i b stack hstack
      obtain rfl := Option.some.inj hstep
      exact bounded_pop h hstack rfl rfl
    · rename_i e rest stack hstack
      obtain rfl := Option.some.inj hstep
      have hswap := bounded_swap (g := .ending rest) h hstack rfl rfl rfl trivial
      exact bounded_put hswap (moves_finishing _).1 fun _ => (moves_finishing _).2.queue
    · rename_i stack hstack
      obtain rfl := Option.some.inj hstep
      exact bounded_pop h hstack rfl rfl
    · rename_i e stack hstack
      obtain rfl := Option.some.inj hstep
      exact bounded_ends (bounded_pop h hstack rfl rfl) _
    · rename_i e resume stack hstack
      obtain rfl := Option.some.inj hstep
      exact bounded_resume h hstack
    · contradiction
  | returns outcome =>
    simp only [step, State.returns] at hstep
    split at hstep
    · rename_i stack hstack
      obtain rfl := Option.some.inj hstep
      exact bounded_pop h hstack rfl rfl
    · rename_i stack hstack
      obtain rfl := Option.some.inj hstep
      exact bounded_pop h hstack rfl rfl
    · rename_i stack hstack
      obtain rfl := Option.some.inj hstep
      exact bounded_pop h hstack rfl rfl
    · rename_i e stack hstack
      obtain rfl := Option.some.inj hstep
      obtain rfl : e = d := h.frames (.pause (some e)) (by simp [hstack])
      exact bounded_once h hstack
    · rename_i e stack hstack
      obtain ⟨t, ht, rfl⟩ := Option.map_eq_some_iff.mp hstep
      have hpop := bounded_pop h hstack (by simp [Frame.wakes]) rfl
      exact bounded_put hpop (moves_returns ht).2.1 fun _ => (moves_returns ht).2.2.queue
    · contradiction

/-- Where one stream is piped to, once, and only the pipe writes to it, and where nothing is pushed while
the source is paused or inside of a push, no more than six buffers wait. -/
theorem pipe_bounded (d : D) (as : List (Act D B)) (s : State D B) (halone : Meets step (alone d) .create as)
    (h : run step .create as = some s) : (s.dests d).queue.length ≤ 6 :=
  (invariant_of_meets (bounded_step d) halone h (bounded_create d)).queue

theorem sevenBuffers_bounded :
    (run step .create sevenBuffers).map (fun s => (s.dests ()).queue.length) = some 6 ∧
      ∀ s, run step .create sevenBuffers = some s → (s.dests ()).queue.length ≤ 6 :=
  ⟨by decide, fun s h => pipe_bounded () sevenBuffers s (by decide) h⟩

end Nodeoze.Event.Pipe
