import Nodeoze.Event.Promises

/-!
# What is known of promises in every run

The flags of a promise say how it was settled; what is stored in it was attached to it and to no other;
what was called was attached.  Every step is a preparation, which changes nothing of this but numbers and
frames (`Quiet`), and at most one settlement or attachment (`Settles`, `Attaches`, `Catches`).
-/

namespace Nodeoze.Event.Promises

open Promise (Outcome)

variable {V Err : Type} {env : Values V Err}

/-! ## Cells -/

namespace Cell

variable {c c' : Cell V Err}

/-- The flags say how the promise was settled. -/
def Agrees (env : Values V Err) (c : Cell V Err) : Option (Outcome V Err) → Prop
  | none => c.resolved = false ∧ c.rejected = false
  | some (.resolved v) => c.resolved = true ∧ c.rejected = false ∧ (c.isVoid = true → v = env.void)
  | some (.rejected e) => c.resolved = false ∧ c.rejected = true ∧ c.err = e

/-- Nothing has changed but that functions are forgotten which are not going to be called. -/
structure Like (c c' : Cell V Err) : Prop where
  isVoid : c'.isVoid = c.isVoid
  resolved : c'.resolved = c.resolved
  rejected : c'.rejected = c.rejected
  val : c'.val = c.val
  err : c'.err = c.err
  slot : ∀ side, c'.slot side = c.slot side ∨ (c.isFinished = true ∧ c'.slot side = none)

theorem Like.refl (c : Cell V Err) : c.Like c := ⟨rfl, rfl, rfl, rfl, rfl, fun _ => .inl rfl⟩

theorem Like.isFinished (h : c.Like c') : c'.isFinished = c.isFinished := by
  simp only [Promise.Shared.isFinished, h.resolved, h.rejected]

theorem Like.trans {d : Cell V Err} (h : c.Like c') (h' : c'.Like d) : c.Like d := by
  refine ⟨h'.isVoid.trans h.isVoid, h'.resolved.trans h.resolved, h'.rejected.trans h.rejected,
    h'.val.trans h.val, h'.err.trans h.err, fun side => ?_⟩
  rcases h'.slot side with heq | ⟨hfin, hnone⟩
  · rw [heq]
    exact h.slot side
  · exact .inr ⟨h.isFinished ▸ hfin, hnone⟩

theorem Agrees.isFinished {fate : Option (Outcome V Err)} (h : c.Agrees env fate) :
    c.isFinished = fate.isSome := by
  rcases fate with _ | v | e
  · simp [Promise.Shared.isFinished, h.1, h.2]
  · simp [Promise.Shared.isFinished, h.1]
  · simp [Promise.Shared.isFinished, h.2.1]

theorem Agrees.like {fate : Option (Outcome V Err)} (h : c.Agrees env fate) (hlike : c.Like c') :
    c'.Agrees env fate := by
  rcases fate with _ | v | e
  · exact ⟨hlike.resolved.trans h.1, hlike.rejected.trans h.2⟩
  · exact ⟨hlike.resolved.trans h.1, hlike.rejected.trans h.2.1, fun hv => h.2.2 (hlike.isVoid ▸ hv)⟩
  · exact ⟨hlike.resolved.trans h.1, hlike.rejected.trans h.2.1, hlike.err.trans h.2.2⟩

theorem fresh_slot (isVoid side : Bool) : (fresh env isVoid).slot side = none := by
  cases side <;> rfl

theorem fresh_agrees (isVoid : Bool) : (fresh env isVoid).Agrees env none := ⟨rfl, rfl⟩

@[simp] theorem finish_isVoid (c : Cell V Err) (o : Outcome V Err) : (c.finish o).isVoid = c.isVoid := by
  unfold finish
  split <;> split <;> rfl

theorem agrees_finish (h : c.Agrees env none) (o : Outcome V Err) :
    (c.finish (env.norm c.isVoid o)).Agrees env (some (env.norm c.isVoid o)) := by
  obtain ⟨hres, hrej⟩ := h
  cases o with
  | resolved v =>
    refine ⟨?_, ?_, fun hv => ?_⟩
    · simp only [finish, Values.norm]
      split <;> rfl
    · simp only [finish, Values.norm]
      split <;> exact hrej
    · rw [finish_isVoid] at hv
      exact if_pos hv
  | rejected e =>
    refine ⟨?_, ?_, ?_⟩ <;> simp only [finish, Values.norm] <;> split <;> first | rfl | exact hres

/-- A function that is about to be called is not stored any more. -/
theorem slot_finish {o : Outcome V Err} {side : Bool} {k : Callback}
    (h : (c.finish o).slot side = some k) : c.slot side = some k ∧ side ≠ o.isRejected := by
  cases o with
  | resolved v =>
    cases side with
    | false =>
      simp only [finish, slot] at h
      cases hslot : c.resolve <;> simp [hslot] at h
    | true =>
      simp only [finish, slot] at h
      cases hslot : c.resolve <;> simpa [hslot, slot, Outcome.isRejected] using h
  | rejected e =>
    cases side with
    | false =>
      simp only [finish, slot] at h
      cases hslot : c.reject <;> simpa [hslot, slot, Outcome.isRejected] using h
    | true =>
      simp only [finish, slot] at h
      cases hslot : c.reject <;> simp [hslot] at h

/-- The value is stored when there is nothing to call. -/
theorem finish_val (c : Cell V Err) (o : Outcome V Err) (hvoid : c.isVoid = true → c.val = env.void)
    (hv : c.isVoid = true) : (c.finish (env.norm c.isVoid o)).val = env.void := by
  cases o with
  | resolved v =>
    simp only [finish, Values.norm]
    split
    · exact hvoid hv
    · exact if_pos hv
  | rejected e =>
    simp only [finish, Values.norm]
    split <;> exact hvoid hv

end Cell

/-! ## The invariant -/

/-- The numbers of a function have been given out. -/
def Callback.Below (next : Nat) (k : Callback) : Prop := k.number < next ∧ ∀ t ∈ k.target, t < next

theorem Callback.Below.mono {k : Callback} {n n' : Nat} (h : k.Below n) (hle : n ≤ n') : k.Below n' :=
  ⟨Nat.lt_of_lt_of_le h.1 hle, fun t ht => Nat.lt_of_lt_of_le (h.2 t ht) hle⟩

namespace State

variable {s s' : State V Err}

/-- How a promise was settled. -/
def fate (s : State V Err) (p : Nat) : Option (Outcome V Err) := s.settled.lookup p

/-- What a function was called with. -/
def told (s : State V Err) (k : Callback) : List (Outcome V Err) :=
  (s.calls.filter fun call => call.1 == k).map (·.2)

/-- What a frame is about has been given out. -/
def FrameValid (s : State V Err) : Frame V Err → Prop
  | .call k _ => k.Below s.next
  | .running (some job) => job.2 < s.next
  | .after p _ => (s.fate p).isSome = true
  | .register c _ todo => c < s.next ∧ ∀ p ∈ todo, p < s.next
  | _ => True

structure Framed (s : State V Err) : Prop where
  valid : ∀ f ∈ s.stack, s.FrameValid f
  promises : ∀ p ∈ s.promises, p < s.next

/-- The cells are as the history has it. -/
structure Sound (env : Values V Err) (s : State V Err) : Prop where
  agrees : ∀ p, (s.cells p).Agrees env (s.fate p)
  void : ∀ p, (s.cells p).isVoid = true → (s.cells p).val = env.void
  fate_lt : ∀ p, (s.fate p).isSome = true → p < s.next
  log_lt : ∀ p k, (p, k) ∈ s.log → p < s.next ∧ k.Below s.next
  home : ∀ p p' k, (p, k) ∈ s.log → (p', k) ∈ s.log → p = p'
  slot : ∀ p side k, (s.cells p).slot side = some k → (p, k) ∈ s.log ∧ k.onReject = side
  called : ∀ k o, (k, o) ∈ s.calls → ∃ p, (p, k) ∈ s.log
  framed : s.Framed

theorem sound_init : (init env : State V Err).Sound env where
  agrees p := Cell.fresh_agrees false
  void p h := by cases h
  fate_lt p h := by cases h
  log_lt p k h := absurd h List.not_mem_nil
  home p p' k h := absurd h List.not_mem_nil
  slot p side k h := by
    rw [show (init env : State V Err).cells p = .fresh env false from rfl, Cell.fresh_slot] at h
    cases h
  called k o h := absurd h List.not_mem_nil
  framed := ⟨fun f h => absurd h List.not_mem_nil, fun p h => absurd h List.not_mem_nil⟩

theorem Sound.isFinished (h : s.Sound env) (p : Nat) : (s.cells p).isFinished = (s.fate p).isSome :=
  (h.agrees p).isFinished

/-- A number that is not given out yet stands for nothing that was attached. -/
theorem Sound.fresh (h : s.Sound env) {k : Callback} (hk : s.next ≤ k.number) :
    (∀ p, (p, k) ∉ s.log) ∧ s.told k = [] := by
  have hlog : ∀ p, (p, k) ∉ s.log := by
    intro p hmem
    have := (h.log_lt p k hmem).2.1
    omega
  refine ⟨hlog, ?_⟩
  rw [told, List.map_eq_nil_iff, List.filter_eq_nil_iff]
  rintro ⟨k', o⟩ hmem heq
  obtain rfl : k' = k := beq_iff_eq.mp heq
  obtain ⟨p, hp⟩ := h.called k' o hmem
  exact hlog p hp

/-! ## Before anything is settled or attached -/

/-- Nothing is settled, called or attached; a number is given out, or frames change. -/
structure Quiet (env : Values V Err) (s s' : State V Err) : Prop where
  settled : s'.settled = s.settled
  calls : s'.calls = s.calls
  log : s'.log = s.log
  next : s.next ≤ s'.next
  cells : ∀ p, (s.cells p).Like (s'.cells p) ∨ (s.next ≤ p ∧ ∃ isVoid, s'.cells p = .fresh env isVoid)

theorem Quiet.fate (h : Quiet env s s') (p : Nat) : s'.fate p = s.fate p := by
  rw [State.fate, State.fate, h.settled]

theorem Quiet.told (h : Quiet env s s') (k : Callback) : s'.told k = s.told k := by
  rw [State.told, State.told, h.calls]

theorem Quiet.like (h : Quiet env s s') {p : Nat} (hp : p < s.next) : (s.cells p).Like (s'.cells p) := by
  rcases h.cells p with hlike | ⟨hle, -⟩
  · exact hlike
  · omega

theorem Quiet.refl (env : Values V Err) (s : State V Err) : Quiet env s s :=
  ⟨rfl, rfl, rfl, Nat.le_refl _, fun _ => .inl (.refl _)⟩

theorem Quiet.of_like (hsettled : s'.settled = s.settled) (hcalls : s'.calls = s.calls)
    (hlog : s'.log = s.log) (hnext : s.next ≤ s'.next) (hcells : ∀ p, (s.cells p).Like (s'.cells p)) :
    Quiet env s s' :=
  ⟨hsettled, hcalls, hlog, hnext, fun p => .inl (hcells p)⟩

theorem Quiet.of_cells (hsettled : s'.settled = s.settled) (hcalls : s'.calls = s.calls)
    (hlog : s'.log = s.log) (hnext : s.next ≤ s'.next) (hcells : s'.cells = s.cells) : Quiet env s s' := by
  refine .of_like hsettled hcalls hlog hnext fun p => ?_
  rw [hcells]
  exact .refl _

theorem quiet_alloc (env : Values V Err) (s : State V Err) (isVoid : Bool) : Quiet env s (s.alloc env isVoid) := by
  refine ⟨rfl, rfl, rfl, Nat.le_succ _, fun p => ?_⟩
  by_cases hp : p = s.next
  · subst hp
    exact .inr ⟨Nat.le_refl _, isVoid, Function.update_self ..⟩
  · left
    rw [show (s.alloc env isVoid).cells p = s.cells p from Function.update_of_ne hp ..]
    exact .refl _

/-- One cell changes to one that is like it. -/
theorem like_setCell {p : Nat} {c : Cell V Err} (h : (s.cells p).Like c) (q : Nat) :
    (s.cells q).Like ((s.setCell p c).cells q) := by
  by_cases hq : q = p
  · subst hq
    rw [show (s.setCell q c).cells q = c from Function.update_self ..]
    exact h
  · rw [show (s.setCell p c).cells q = s.cells q from Function.update_of_ne hq ..]
    exact .refl _

theorem like_finally (c : Cell V Err) (f : Option Callback) : c.Like { c with finally_ := f } :=
  ⟨rfl, rfl, rfl, rfl, rfl, fun side => .inl (by cases side <;> rfl)⟩

theorem like_takeFinally (s : State V Err) (p q : Nat) :
    (s.cells q).Like ((s.takeFinally p).cells q) := by
  unfold takeFinally
  split
  · exact like_setCell (like_finally _ _) q
  · exact .refl _

theorem quiet_takeFinally (env : Values V Err) (s : State V Err) (p : Nat) : Quiet env s (s.takeFinally p) := by
  unfold takeFinally
  split
  · exact .of_like rfl rfl rfl (Nat.le_refl _) (like_setCell (like_finally _ _))
  · exact .refl env s

theorem quiet_doFinally (s : State V Err) (p : Nat) (k : Callback) :
    Quiet env s (s.number.doFinally p k) := by
  unfold doFinally
  dsimp only
  split
  · exact .of_cells rfl rfl rfl (Nat.le_succ _) rfl
  · exact .of_like rfl rfl rfl (Nat.le_succ _) (like_setCell (s := s.number) (like_finally _ _))

theorem quiet_promiseFor (env : Values V Err) (s : State V Err) (kind : Kind) : Quiet env s (s.promiseFor env kind) := by
  cases kind with
  | nothing => exact .of_cells rfl rfl rfl (Nat.le_succ _) rfl
  | value => exact quiet_alloc env s false
  | promise isVoid => exact quiet_alloc env s isVoid

theorem Sound.quiet (h : s.Sound env) (hquiet : Quiet env s s') (hframed : s'.Framed) : s'.Sound env where
  agrees p := by
    rw [hquiet.fate]
    rcases hquiet.cells p with hlike | ⟨hle, isVoid, hfresh⟩
    · exact (h.agrees p).like hlike
    · have hnone : s.fate p = none := by
        rw [← Option.not_isSome_iff_eq_none]
        intro hsome
        exact absurd (h.fate_lt p hsome) (by omega)
      rw [hnone, hfresh]
      exact Cell.fresh_agrees isVoid
  void p hv := by
    rcases hquiet.cells p with hlike | ⟨hle, isVoid, hfresh⟩
    · rw [hlike.val]
      exact h.void p (hlike.isVoid ▸ hv)
    · rw [hfresh] at hv ⊢
      exact if_pos hv
  fate_lt p hp := Nat.lt_of_lt_of_le (h.fate_lt p (hquiet.fate p ▸ hp)) hquiet.next
  log_lt p k hmem := by
    rw [hquiet.log] at hmem
    obtain ⟨hp, hk⟩ := h.log_lt p k hmem
    exact ⟨Nat.lt_of_lt_of_le hp hquiet.next, hk.mono hquiet.next⟩
  home p p' k hmem hmem' := h.home p p' k (hquiet.log ▸ hmem) (hquiet.log ▸ hmem')
  slot p side k hslot := by
    rw [hquiet.log]
    rcases hquiet.cells p with hlike | ⟨hle, isVoid, hfresh⟩
    · rcases hlike.slot side with heq | ⟨-, hnone⟩
      · exact h.slot p side k (heq ▸ hslot)
      · rw [hnone] at hslot
        cases hslot
    · rw [hfresh, Cell.fresh_slot] at hslot
      cases hslot
  called k o hmem := by
    obtain ⟨p, hp⟩ := h.called k o (hquiet.calls ▸ hmem)
    exact ⟨p, hquiet.log ▸ hp⟩
  framed := hframed

/-- The number of a function is the next one. -/
structure New (next next' : Nat) (side : Bool) (k : Callback) : Prop where
  number : k.number = next
  side : k.onReject = side
  below : k.Below next'

/-- What is settled or attached after the step has begun. -/
def Admissible (next next' : Nat) : Effect V Err → Prop
  | .idle => True
  | .settle p _ => p < next'
  | .attach p a b _ => p < next ∧ New next next' false a ∧ ∀ k ∈ b, New next next' true k
  | .catch_ p k => p < next ∧ New next next' true k

structure Prepared (env : Values V Err) (s s' : State V Err) (e : Effect V Err) : Prop where
  quiet : Quiet env s s'
  framed : s'.Framed
  admissible : Admissible s.next s'.next e

/-- What is settled stays settled, and numbers are not given back. -/
structure Later (s s' : State V Err) : Prop where
  next : s.next ≤ s'.next
  fate : ∀ p, (s.fate p).isSome = true → (s'.fate p).isSome = true

theorem Quiet.later (h : Quiet env s s') : Later s s' := ⟨h.next, fun p hp => (h.fate p).symm ▸ hp⟩

theorem FrameValid.later {f : Frame V Err} (h : s.FrameValid f) (hlater : Later s s') :
    s'.FrameValid f := by
  cases f with
  | call k o => exact Callback.Below.mono h hlater.next
  | running job =>
    cases job with
    | none => trivial
    | some job => exact Nat.lt_of_lt_of_le h hlater.next
  | after p rejected => exact hlater.fate p h
  | register c index todo =>
    exact ⟨Nat.lt_of_lt_of_le h.1 hlater.next, fun p hp => Nat.lt_of_lt_of_le (h.2 p hp) hlater.next⟩
  | final k => trivial
  | direct p => trivial

theorem Framed.later (h : s.Framed) (hlater : Later s s')
    (hstack : ∀ f ∈ s'.stack, f ∈ s.stack ∨ s'.FrameValid f)
    (hpromises : ∀ p ∈ s'.promises, p ∈ s.promises ∨ p < s'.next) : s'.Framed := by
  refine ⟨fun f hf => ?_, fun p hp => ?_⟩
  · rcases hstack f hf with hmem | hvalid
    · exact (h.valid f hmem).later hlater
    · exact hvalid
  · rcases hpromises p hp with hmem | hlt
    · exact Nat.lt_of_lt_of_le (h.promises p hmem) hlater.next
    · exact hlt

/-- One frame is put on top. -/
theorem Framed.push (h : s.Framed) {f : Frame V Err} (hf : s.FrameValid f) : (s.push f).Framed := by
  refine ⟨fun g hg => ?_, h.promises⟩
  rcases List.mem_cons.mp hg with rfl | hmem
  · exact hf
  · exact h.valid g hmem

theorem Framed.number (h : s.Framed) : s.number.Framed :=
  h.later ⟨Nat.le_succ _, fun _ hp => hp⟩ (fun _ => .inl) (fun _ => .inl)

theorem Framed.alloc (h : s.Framed) (env : Values V Err) (isVoid : Bool) : (s.alloc env isVoid).Framed := by
  refine h.later ⟨Nat.le_succ _, fun _ hp => hp⟩ (fun _ => .inl) fun p hp => ?_
  rcases List.mem_append.mp hp with hmem | hmem
  · exact .inl hmem
  · exact .inr (List.mem_singleton.mp hmem ▸ Nat.lt_succ_self _)

theorem Framed.promiseFor (h : s.Framed) (env : Values V Err) (kind : Kind) : (s.promiseFor env kind).Framed := by
  cases kind with
  | nothing => exact h.number
  | value => exact h.alloc env false
  | promise isVoid => exact h.alloc env isVoid

theorem Framed.takeFinally (h : s.Framed) (p : Nat) : (s.takeFinally p).Framed := by
  unfold State.takeFinally
  split
  · exact Framed.push (s := s.setCell p _) ⟨h.valid, h.promises⟩ trivial
  · exact h

theorem Framed.doFinally (h : s.Framed) (p : Nat) (k : Callback) : (s.doFinally p k).Framed := by
  unfold State.doFinally
  dsimp only
  split
  · exact h.push trivial
  · exact ⟨h.valid, h.promises⟩

/-- The frame on top is taken off. -/
theorem Framed.pop (h : s.Framed) {f : Frame V Err} {stack : List (Frame V Err)}
    (hstack : s.stack = f :: stack) : s.FrameValid f ∧ ({ s with stack := stack } : State V Err).Framed :=
  ⟨h.valid f (hstack ▸ List.mem_cons_self), fun g hg => h.valid g (hstack ▸ List.mem_cons_of_mem f hg),
    h.promises⟩

theorem promiseFor_next (env : Values V Err) (s : State V Err) (kind : Kind) : (s.promiseFor env kind).next = s.next + 1 := by
  cases kind <;> rfl

theorem new_of_number {n n' : Nat} {side : Bool} {k : Callback} (hnumber : k.number = n)
    (hside : k.onReject = side) (hnext : n' = n + 1) (htarget : ∀ t ∈ k.target, t < n') :
    New n n' side k :=
  ⟨hnumber, hside, by omega, htarget⟩

/-! ### Each step -/

theorem prepared_giveBack (env : Values V Err) {leaves : V} {job : Option (Kind × Nat)} {result : Result V}
    {e : Effect V Err} (h : s.Framed) (hjob : s.FrameValid (.running job))
    (hgive : s.giveBack leaves job result = some (s', e)) : Prepared env s s' e := by
  unfold giveBack at hgive
  split at hgive
  · cases hgive
    exact ⟨.refl env s, h, trivial⟩
  · cases hgive
    exact ⟨.of_cells rfl rfl rfl (Nat.le_refl _) rfl, ⟨h.valid, h.promises⟩, trivial⟩
  · cases hgive
    exact ⟨.of_cells rfl rfl rfl (Nat.le_refl _) rfl, ⟨h.valid, h.promises⟩, hjob⟩
  · rename_i isVoid n q
    split at hgive
    · rename_i hknown
      cases hgive
      have hq : q < s.next := by
        simp only [Bool.and_eq_true, List.contains_eq_mem, decide_eq_true_eq] at hknown
        exact h.promises q hknown.1
      have hn : n < s.next + 1 := Nat.lt_succ_of_lt hjob
      refine ⟨.of_cells rfl rfl rfl (Nat.le_succ _) rfl, ⟨h.number.valid, h.number.promises⟩, hq, ?_, ?_⟩
      · exact new_of_number rfl rfl rfl fun t ht => Option.some.inj ht ▸ hn
      · intro k hk
        obtain rfl := Option.some.inj hk
        exact new_of_number rfl rfl rfl fun t ht => Option.some.inj ht ▸ hn
    · cases hgive
  · cases hgive

theorem prepared_invoke (env : Values V Err) {k : Callback} {o : Outcome V Err} (h : s.Framed) (hk : k.Below s.next) :
    Prepared env s (s.invoke env k o).1 (s.invoke env k o).2 := by
  have hquiet : ∀ f : Frame V Err, Quiet env s (s.push f) :=
    fun f => .of_cells rfl rfl rfl (Nat.le_refl _) rfl
  have hgather : ∀ c index, c < s.next →
      Prepared env s (s.invoke env (.gather 0 c index) o).1 (s.invoke env (.gather 0 c index) o).2 := by
    intro c index hc
    simp only [invoke]
    split
    · exact ⟨.refl env s, h, trivial⟩
    · rename_i g hg
      dsimp only
      refine ⟨.of_cells rfl rfl rfl (Nat.le_refl _) rfl, ⟨h.valid, h.promises⟩, ?_⟩
      cases (g.hear env (s.cells c).isFinished index o).2 with
      | none => trivial
      | some o' => exact hc
  cases k with
  | user kind n => exact ⟨hquiet _, h.push (hk.2 n rfl), trivial⟩
  | reject n => exact ⟨hquiet _, h.push trivial, trivial⟩
  | catcher n => exact ⟨hquiet _, h.push trivial, trivial⟩
  | final n => exact ⟨hquiet _, h.push trivial, trivial⟩
  | forward n => exact ⟨.refl env s, h, hk.2 n rfl⟩
  | pass m n => exact ⟨.refl env s, h, hk.2 n rfl⟩
  | passError m n => exact ⟨.refl env s, h, hk.2 n rfl⟩
  | gather m c index => exact hgather c index (hk.2 c rfl)
  | gatherError m c index => exact hgather c index (hk.2 c rfl)

theorem like_forget {c : Cell V Err} (hfin : c.isFinished = true) (rejected : Bool) :
    c.Like (if rejected then { c with resolve := none } else { c with reject := none }) := by
  cases rejected with
  | false =>
    refine ⟨rfl, rfl, rfl, rfl, rfl, fun side => ?_⟩
    cases side with
    | false => exact .inl rfl
    | true => exact .inr ⟨hfin, rfl⟩
  | true =>
    refine ⟨rfl, rfl, rfl, rfl, rfl, fun side => ?_⟩
    cases side with
    | false => exact .inr ⟨hfin, rfl⟩
    | true => exact .inl rfl

theorem prepared_resume {leaves : V} {f : Frame V Err} {e : Effect V Err} (h : s.Framed)
    (hagrees : ∀ p, (s.cells p).Agrees env (s.fate p)) (hf : s.FrameValid f)
    (hresume : s.resume env leaves f = some (s', e)) : Prepared env s s' e := by
  cases f with
  | call k o =>
    have hinvoke := prepared_invoke env (o := o) h hf
    rw [Option.some.inj hresume] at hinvoke
    exact hinvoke
  | final k =>
    cases hresume
    exact ⟨.of_cells rfl rfl rfl (Nat.le_refl _) rfl, h.push trivial, trivial⟩
  | running job => cases hresume
  | after p rejected =>
    cases hresume
    have hfin : (s.cells p).isFinished = true := (hagrees p).isFinished.trans hf
    have hlike := like_setCell (s := s) (like_forget hfin rejected)
    have htake := quiet_takeFinally env
      (s.setCell p (if rejected then { s.cells p with resolve := none }
        else { s.cells p with reject := none })) p
    refine ⟨.of_like htake.settled htake.calls htake.log htake.next fun q => ?_, ?_, trivial⟩
    · exact (hlike q).trans (like_takeFinally _ p q)
    · exact Framed.takeFinally (s := s.setCell p _) ⟨h.valid, h.promises⟩ p
  | direct p =>
    cases hresume
    split
    · exact ⟨quiet_takeFinally env s p, h.takeFinally p, trivial⟩
    · exact ⟨.refl env s, h, trivial⟩
  | register c index todo =>
    cases todo with
    | nil =>
      simp only [resume] at hresume
      split at hresume
      · cases hresume
        exact ⟨.refl env s, h, trivial⟩
      · cases hresume
    | cons p todo =>
      simp only [resume] at hresume
      split at hresume
      · cases hresume
        have hc : c < s.next + 1 := Nat.lt_succ_of_lt hf.1
        refine ⟨.of_cells rfl rfl rfl (Nat.le_succ _) rfl, h.number.push ?_,
          hf.2 p List.mem_cons_self, ?_, ?_⟩
        · exact ⟨hc, fun q hq => Nat.lt_succ_of_lt (hf.2 q (List.mem_cons_of_mem p hq))⟩
        · exact new_of_number rfl rfl rfl fun t ht => Option.some.inj ht ▸ hc
        · intro k hk
          obtain rfl := Option.some.inj hk
          exact new_of_number rfl rfl rfl fun t ht => Option.some.inj ht ▸ hc
      · cases hresume

theorem prepared_gather (env : Values V Err) (mode : Mode) (isVoid : Bool) {inputs : List Nat} (h : s.Framed)
    (hinputs : ∀ p ∈ inputs, p ∈ s.promises) :
    Prepared env s (s.gather env mode isVoid inputs).1 (s.gather env mode isVoid inputs).2 := by
  have hquiet := quiet_alloc env s isVoid
  have halloc := h.alloc env isVoid
  unfold gather
  dsimp only
  cases inputs with
  | nil =>
    exact ⟨⟨hquiet.settled, hquiet.calls, hquiet.log, hquiet.next, hquiet.cells⟩,
      ⟨halloc.valid, halloc.promises⟩, Nat.lt_succ_self _⟩
  | cons p ps =>
    refine ⟨⟨hquiet.settled, hquiet.calls, hquiet.log, hquiet.next, hquiet.cells⟩, ?_, trivial⟩
    have hvalid : (s.alloc env isVoid).FrameValid (.register s.next 0 (p :: ps)) :=
      ⟨Nat.lt_succ_self _, fun q hq => Nat.lt_succ_of_lt (h.promises q (hinputs q hq))⟩
    exact Framed.push (s := { s.alloc env isVoid with gathers := Function.update s.gathers s.next (some _) })
      ⟨halloc.valid, halloc.promises⟩ hvalid

theorem mem_of_knows {p : Nat} (h : s.knows p = true) : p ∈ s.promises := by
  simp only [knows, Bool.and_eq_true, List.contains_eq_mem, decide_eq_true_eq] at h
  exact h.2

theorem prepared {a : Act V Err} {e : Effect V Err} (h : s.Sound env)
    (hprep : s.prepare env a = some (s', e)) : Prepared env s s' e := by
  have hframed := h.framed
  cases a with
  | create isVoid =>
    simp only [prepare] at hprep
    split at hprep
    · cases hprep
      exact ⟨quiet_alloc env s isVoid, hframed.alloc env isVoid, trivial⟩
    · cases hprep
  | then_ p kind hasReject leaves =>
    simp only [prepare] at hprep
    split at hprep
    · rename_i hknows
      cases hprep
      have hquiet := quiet_promiseFor env s kind
      have hnext := promiseFor_next env s kind
      have hkind := hframed.promiseFor env kind
      refine ⟨⟨hquiet.settled, hquiet.calls, hquiet.log, hquiet.next, hquiet.cells⟩,
        ⟨hkind.valid, hkind.promises⟩, hframed.promises p (mem_of_knows hknows), ?_, ?_⟩
      · refine new_of_number rfl rfl hnext fun t ht => ?_
        obtain rfl := Option.some.inj ht
        exact hnext.symm ▸ Nat.lt_succ_self _
      · intro k hk
        have hlt : s.next < (s.promiseFor env kind).next := hnext.symm ▸ Nat.lt_succ_self _
        cases kind with
        | nothing =>
          cases hasReject with
          | false => cases hk
          | true =>
            obtain rfl := Option.some.inj hk
            exact new_of_number rfl rfl hnext fun t ht => by cases ht
        | value =>
          obtain rfl := Option.some.inj hk
          exact new_of_number rfl rfl hnext fun t ht => Option.some.inj ht ▸ hlt
        | promise isVoid =>
          obtain rfl := Option.some.inj hk
          exact new_of_number rfl rfl hnext fun t ht => Option.some.inj ht ▸ hlt
    · cases hprep
  | catcher p =>
    simp only [prepare] at hprep
    split at hprep
    · rename_i hknows
      cases hprep
      refine ⟨.of_cells rfl rfl rfl (Nat.le_succ _) rfl, hframed.number,
        hframed.promises p (mem_of_knows hknows), ?_⟩
      exact new_of_number rfl rfl rfl fun t ht => by cases ht
    · cases hprep
  | finally_ p =>
    simp only [prepare] at hprep
    split at hprep
    · cases hprep
      exact ⟨quiet_doFinally s p _, hframed.number.doFinally p _, trivial⟩
    · cases hprep
  | settle p o =>
    simp only [prepare] at hprep
    split at hprep
    · rename_i hknows
      cases hprep
      exact ⟨.refl env s, hframed, hframed.promises p (mem_of_knows hknows)⟩
    · cases hprep
  | gather mode isVoid inputs =>
    simp only [prepare] at hprep
    split at hprep
    · rename_i hknown
      have hinputs : ∀ p ∈ inputs, p ∈ s.promises := by
        simp only [Bool.and_eq_true, List.all_eq_true, List.contains_eq_mem, decide_eq_true_eq] at hknown
        exact fun p hp => (hknown.2 p hp).1
      have hgather := prepared_gather env mode isVoid hframed hinputs
      rw [Option.some.inj hprep] at hgather
      exact hgather
    · cases hprep
  | ret result leaves =>
    simp only [prepare] at hprep
    split at hprep
    · rename_i job stack hstack
      obtain ⟨hf, hpop⟩ := hframed.pop hstack
      obtain ⟨hquiet, hframed', hadm⟩ := prepared_giveBack env hpop hf hprep
      exact ⟨⟨hquiet.settled, hquiet.calls, hquiet.log, hquiet.next, hquiet.cells⟩, hframed', hadm⟩
    · cases hprep
  | go leaves =>
    simp only [prepare] at hprep
    split at hprep
    · rename_i f stack hstack
      obtain ⟨hf, hpop⟩ := hframed.pop hstack
      obtain ⟨hquiet, hframed', hadm⟩ := prepared_resume hpop h.agrees hf hprep
      exact ⟨⟨hquiet.settled, hquiet.calls, hquiet.log, hquiet.next, hquiet.cells⟩, hframed', hadm⟩
    · cases hprep

/-! ## Settling and attaching -/

theorem fate_of_settled {p q : Nat} {o : Outcome V Err} (h : s'.settled = s.settled ++ [(p, o)])
    (hnone : s.fate p = none) : s'.fate q = if q = p then some o else s.fate q := by
  rw [fate, h, List.lookup_append, ← fate]
  by_cases hq : q = p
  · subst hq
    simp [hnone]
  · have hbeq : (q == p) = false := beq_false_of_ne hq
    simp [List.lookup_cons, hbeq, hq]

theorem told_of_calls {k : Callback} {more : List (Callback × Outcome V Err)}
    (h : s'.calls = s.calls ++ more) :
    s'.told k = s.told k ++ (more.filter fun call => call.1 == k).map (·.2) := by
  rw [told, h, List.filter_append, List.map_append, ← told]

/-- What settling does to a promise that is not settled yet: what waits for the outcome is called. -/
structure Settles (env : Values V Err) (s : State V Err) (p : Nat) (o : Outcome V Err) (s' : State V Err) :
    Prop where
  cells : s'.cells = Function.update s.cells p ((s.cells p).finish o)
  settled : s'.settled = s.settled ++ [(p, o)]
  calls : s'.calls = s.calls ++ ((s.cells p).slot o.isRejected).toList.map fun k => (k, o)
  stack : s'.stack = match (s.cells p).slot o.isRejected with
    | some k => .call k o :: .after p o.isRejected :: s.stack
    | none => s.stack
  log : s'.log = s.log
  next : s'.next = s.next
  promises : s'.promises = s.promises
  gathers : s'.gathers = s.gathers
  returned : s'.returned = s.returned
  offered : s'.offered = s.offered

theorem settle_finished {p : Nat} {o : Outcome V Err} (h : (s.cells p).isFinished = true) :
    s.settle env p o = s := by
  simp [settle, h]

theorem settles {p : Nat} {o : Outcome V Err} (h : (s.cells p).isFinished = false) :
    Settles env s p (env.norm (s.cells p).isVoid o) (s.settle env p o) := by
  unfold settle
  simp only [h, Bool.false_eq_true, if_false]
  split
  · rename_i k hslot
    exact ⟨rfl, rfl, by simp [hslot, enter, setCell], by simp [hslot, enter, setCell], rfl, rfl, rfl, rfl,
      rfl, rfl⟩
  · rename_i hslot
    exact ⟨rfl, rfl, by simp [hslot, setCell], by simp [hslot, setCell], rfl, rfl, rfl, rfl, rfl, rfl⟩

/-- What is called when something is attached to a promise. -/
def direct (s : State V Err) (p : Nat) (a : Callback) (b : Option Callback) :
    List (Callback × Outcome V Err) :=
  let c := s.cells p
  if c.rejected then b.toList.map fun b => (b, .rejected c.err)
  else if c.resolved then [(a, .resolved c.val)]
  else []

structure Attaches (s : State V Err) (p : Nat) (a : Callback) (b : Option Callback) (s' : State V Err) :
    Prop where
  cells : ∃ v, s'.cells = Function.update s.cells p { s.cells p with resolve := some a, reject := b, val := v } ∧
    ((s.cells p).isVoid = true → v = (s.cells p).val)
  settled : s'.settled = s.settled
  calls : s'.calls = s.calls ++ s.direct p a b
  stack : s'.stack = (s.direct p a b).map (fun call => .call call.1 call.2)
    ++ (if (s.cells p).isFinished then [.direct p] else []) ++ s.stack
  log : s'.log = s.log ++ (p, a) :: b.toList.map fun b => (p, b)
  next : s'.next = s.next
  promises : s'.promises = s.promises
  gathers : s'.gathers = s.gathers
  returned : s'.returned = s.returned
  offered : s'.offered = s.offered

theorem attaches {p : Nat} {a : Callback} {b : Option Callback} {leaves : V}
    (h : s.attachTo p a b leaves = some s') : Attaches s p a b s' := by
  unfold attachTo at h
  split at h
  · cases h
  · dsimp only at h
    split at h
    · rename_i hrej
      cases h
      refine ⟨⟨_, rfl, fun _ => rfl⟩, rfl, ?_, ?_, rfl, rfl, rfl, rfl, rfl, rfl⟩
      · simp [enter, setCell, direct, hrej]
      · simp [enter, setCell, direct, hrej, Promise.Shared.isFinished]
    · rename_i hrej
      split at h
      · rename_i hres
        cases h
        refine ⟨⟨_, rfl, fun hv => if_pos hv⟩, rfl, ?_, ?_, rfl, rfl, rfl, rfl, rfl, rfl⟩
        · simp [enter, setCell, direct, hrej, hres]
        · simp [enter, setCell, direct, hrej, hres, Promise.Shared.isFinished]
      · rename_i hres
        cases h
        refine ⟨⟨_, rfl, fun _ => rfl⟩, rfl, ?_, ?_, rfl, rfl, rfl, rfl, rfl, rfl⟩
        · simp [setCell, direct, hrej, hres]
        · simp [setCell, direct, hrej, hres, Promise.Shared.isFinished]

structure Catches (s : State V Err) (p : Nat) (k : Callback) (s' : State V Err) : Prop where
  cells : s'.cells = if (s.cells p).isFinished then s.cells
    else Function.update s.cells p { s.cells p with reject := some k }
  settled : s'.settled = s.settled
  calls : s'.calls = s.calls ++ if (s.cells p).rejected then [(k, .rejected (s.cells p).err)] else []
  stack : s'.stack = (if (s.cells p).rejected then [.call k (.rejected (s.cells p).err)] else [])
    ++ s.stack
  log : s'.log = s.log ++ [(p, k)]
  next : s'.next = s.next
  promises : s'.promises = s.promises
  gathers : s'.gathers = s.gathers
  returned : s'.returned = s.returned
  offered : s'.offered = s.offered

theorem catches (s : State V Err) (p : Nat) (k : Callback) : Catches s p k (s.doCatch p k) := by
  unfold doCatch
  dsimp only
  split
  · rename_i hfin
    split
    · rename_i hrej
      exact ⟨(if_pos hfin).symm, rfl, by simp [enter, hrej], by simp [enter, hrej], rfl, rfl, rfl, rfl, rfl,
        rfl⟩
    · rename_i hrej
      exact ⟨(if_pos hfin).symm, rfl, by simp [hrej], by simp [hrej], rfl, rfl, rfl, rfl, rfl, rfl⟩
  · rename_i hfin
    have hrej : (s.cells p).rejected = false := by
      simp only [Promise.Shared.isFinished, Bool.or_eq_true, not_or, Bool.not_eq_true] at hfin
      exact hfin.2
    exact ⟨(if_neg hfin).symm, rfl, by simp [setCell, hrej], by simp [setCell, hrej], rfl, rfl, rfl, rfl,
      rfl, rfl⟩

theorem Settles.fate {p : Nat} {o : Outcome V Err} (h : Settles env s p o s') (hnone : s.fate p = none)
    (q : Nat) : s'.fate q = if q = p then some o else s.fate q :=
  fate_of_settled h.settled hnone

theorem Settles.later {p : Nat} {o : Outcome V Err} (h : Settles env s p o s') (hnone : s.fate p = none) :
    Later s s' := by
  refine ⟨Nat.le_of_eq h.next.symm, fun q hq => ?_⟩
  rw [h.fate hnone]
  split
  · rfl
  · exact hq

theorem Sound.settles (h : s.Sound env) {p : Nat} {o : Outcome V Err} (hp : p < s.next)
    (hnone : s.fate p = none) (hs : Settles env s p (env.norm (s.cells p).isVoid o) s') : s'.Sound env where
  agrees q := by
    rw [hs.fate hnone, hs.cells]
    by_cases hq : q = p
    · subst hq
      rw [Function.update_self, if_pos rfl]
      exact Cell.agrees_finish (hnone ▸ h.agrees q) o
    · rw [Function.update_of_ne hq, if_neg hq]
      exact h.agrees q
  void q hv := by
    rw [hs.cells] at hv ⊢
    by_cases hq : q = p
    · subst hq
      rw [Function.update_self] at hv ⊢
      rw [Cell.finish_isVoid] at hv
      exact Cell.finish_val _ o (h.void q) hv
    · rw [Function.update_of_ne hq] at hv ⊢
      exact h.void q hv
  fate_lt q hq := by
    rw [hs.next]
    rw [hs.fate hnone] at hq
    split at hq
    · rename_i heq
      exact heq ▸ hp
    · exact h.fate_lt q hq
  log_lt q k hmem := hs.next ▸ h.log_lt q k (hs.log ▸ hmem)
  home q q' k hmem hmem' := h.home q q' k (hs.log ▸ hmem) (hs.log ▸ hmem')
  slot q side k hslot := by
    rw [hs.log]
    rw [hs.cells] at hslot
    by_cases hq : q = p
    · subst hq
      rw [Function.update_self] at hslot
      exact h.slot q side k (Cell.slot_finish hslot).1
    · rw [Function.update_of_ne hq] at hslot
      exact h.slot q side k hslot
  called k o' hmem := by
    rw [hs.log]
    rw [hs.calls] at hmem
    rcases List.mem_append.mp hmem with hmem | hmem
    · exact h.called k o' hmem
    · obtain ⟨k', hk', heq⟩ := List.mem_map.mp hmem
      cases heq
      exact ⟨p, (h.slot p _ k (Option.mem_toList.mp hk')).1⟩
  framed := by
    refine h.framed.later (hs.later hnone) (fun f hf => ?_) fun q hq => .inl (hs.promises ▸ hq)
    rw [hs.stack] at hf
    split at hf
    · rename_i k hslot
      rcases List.mem_cons.mp hf with rfl | hf
      · right
        show k.Below s'.next
        rw [hs.next]
        exact (h.log_lt p k (h.slot p _ k hslot).1).2
      · rcases List.mem_cons.mp hf with rfl | hf
        · right
          show (s'.fate p).isSome = true
          rw [hs.fate hnone, if_pos rfl]
          rfl
        · exact .inl hf
    · exact .inl hf

/-- What is stored by `then` has been attached just now. -/
theorem slot_attach {c : Cell V Err} {a k : Callback} {b : Option Callback} {v : V} {side : Bool}
    (h : Cell.slot { c with resolve := some a, reject := b, val := v } side = some k) :
    (side = false ∧ k = a) ∨ (side = true ∧ k ∈ b) := by
  cases side with
  | false => exact .inl ⟨rfl, (Option.some.inj h).symm⟩
  | true => exact .inr ⟨rfl, h⟩

theorem mem_direct {p : Nat} {a k : Callback} {b : Option Callback} {o : Outcome V Err}
    (h : (k, o) ∈ s.direct p a b) : k = a ∨ k ∈ b := by
  unfold direct at h
  dsimp only at h
  split at h
  · obtain ⟨b', hb', heq⟩ := List.mem_map.mp h
    cases heq
    exact .inr (Option.mem_toList.mp hb')
  · split at h
    · cases List.mem_singleton.mp h
      exact .inl rfl
    · cases h

theorem Attaches.fate {p : Nat} {a : Callback} {b : Option Callback} (h : Attaches s p a b s') (q : Nat) :
    s'.fate q = s.fate q := by
  rw [State.fate, State.fate, h.settled]

theorem Attaches.mem_log {p q : Nat} {a k : Callback} {b : Option Callback} (h : Attaches s p a b s') :
    (q, k) ∈ s'.log ↔ (q, k) ∈ s.log ∨ (q = p ∧ (k = a ∨ k ∈ b)) := by
  rw [h.log, List.mem_append, List.mem_cons, List.mem_map]
  constructor
  · rintro (hmem | heq | ⟨b', hb', heq⟩)
    · exact .inl hmem
    · cases heq
      exact .inr ⟨rfl, .inl rfl⟩
    · cases heq
      exact .inr ⟨rfl, .inr (Option.mem_toList.mp hb')⟩
  · rintro (hmem | ⟨rfl, rfl | hk⟩)
    · exact .inl hmem
    · exact .inr (.inl rfl)
    · exact .inr (.inr ⟨k, Option.mem_toList.mpr hk, rfl⟩)

theorem Sound.attaches (h : s.Sound env) {p n : Nat} {a : Callback} {b : Option Callback} (hp : p < s.next)
    (ha : New n s.next false a) (hb : ∀ k ∈ b, New n s.next true k)
    (hnew : ∀ q k, k.number = n → (q, k) ∉ s.log) (hs : Attaches s p a b s') : s'.Sound env := by
  have hnumber : ∀ k, k = a ∨ k ∈ b → k.number = n ∧ k.Below s.next := by
    rintro k (rfl | hk)
    · exact ⟨ha.number, ha.below⟩
    · exact ⟨(hb k hk).number, (hb k hk).below⟩
  obtain ⟨v, hcells, hv⟩ := hs.cells
  refine ⟨fun q => ?_, fun q hvoid => ?_, fun q hq => ?_, fun q k hmem => ?_, fun q q' k hmem hmem' => ?_,
    fun q side k hslot => ?_, fun k o hmem => ?_, ?_⟩
  · rw [hs.fate, hcells]
    by_cases hq : q = p
    · subst hq
      rw [Function.update_self]
      exact h.agrees q
    · rw [Function.update_of_ne hq]
      exact h.agrees q
  · rw [hcells] at hvoid ⊢
    by_cases hq : q = p
    · subst hq
      rw [Function.update_self] at hvoid ⊢
      exact (hv hvoid).trans (h.void q hvoid)
    · rw [Function.update_of_ne hq] at hvoid ⊢
      exact h.void q hvoid
  · rw [hs.next]
    exact h.fate_lt q (hs.fate q ▸ hq)
  · rw [hs.next]
    rcases hs.mem_log.mp hmem with hmem | ⟨rfl, hk⟩
    · exact h.log_lt q k hmem
    · exact ⟨hp, (hnumber k hk).2⟩
  · rcases hs.mem_log.mp hmem with hmem | ⟨rfl, hk⟩
    · rcases hs.mem_log.mp hmem' with hmem' | ⟨rfl, hk⟩
      · exact h.home q q' k hmem hmem'
      · exact absurd hmem (hnew q k (hnumber k hk).1)
    · rcases hs.mem_log.mp hmem' with hmem' | ⟨rfl, -⟩
      · exact absurd hmem' (hnew q' k (hnumber k hk).1)
      · rfl
  · rw [hs.mem_log]
    rw [hcells] at hslot
    by_cases hq : q = p
    · subst hq
      rw [Function.update_self] at hslot
      rcases slot_attach hslot with ⟨rfl, rfl⟩ | ⟨rfl, hk⟩
      · exact ⟨.inr ⟨rfl, .inl rfl⟩, ha.side⟩
      · exact ⟨.inr ⟨rfl, .inr hk⟩, (hb k hk).side⟩
    · rw [Function.update_of_ne hq] at hslot
      obtain ⟨hmem, hside⟩ := h.slot q side k hslot
      exact ⟨.inl hmem, hside⟩
  · rw [hs.calls] at hmem
    rcases List.mem_append.mp hmem with hmem | hmem
    · obtain ⟨q, hq⟩ := h.called k o hmem
      exact ⟨q, hs.mem_log.mpr (.inl hq)⟩
    · exact ⟨p, hs.mem_log.mpr (.inr ⟨rfl, mem_direct hmem⟩)⟩
  · refine h.framed.later ⟨Nat.le_of_eq hs.next.symm, fun q hq => (hs.fate q).symm ▸ hq⟩ (fun f hf => ?_)
      fun q hq => .inl (hs.promises ▸ hq)
    rw [hs.stack, List.mem_append, List.mem_append] at hf
    rcases hf with (hf | hf) | hf
    · obtain ⟨call, hcall, rfl⟩ := List.mem_map.mp hf
      right
      show call.1.Below s'.next
      rw [hs.next]
      exact (hnumber call.1 (mem_direct hcall)).2
    · split at hf
      · obtain rfl := List.mem_singleton.mp hf
        exact .inr trivial
      · cases hf
    · exact .inl hf

theorem Catches.fate {p : Nat} {k : Callback} (h : Catches s p k s') (q : Nat) : s'.fate q = s.fate q := by
  rw [State.fate, State.fate, h.settled]

theorem Catches.mem_log {p q : Nat} {k k' : Callback} (h : Catches s p k s') :
    (q, k') ∈ s'.log ↔ (q, k') ∈ s.log ∨ (q = p ∧ k' = k) := by
  rw [h.log, List.mem_append, List.mem_singleton, Prod.mk.injEq]

/-- A catcher is stored, or the cell stays as it is. -/
theorem Catches.cell {p : Nat} {k : Callback} (h : Catches s p k s') (q : Nat) :
    s'.cells q = s.cells q ∨
      (q = p ∧ (s.cells p).isFinished = false ∧ s'.cells p = { s.cells p with reject := some k }) := by
  rw [h.cells]
  split
  · exact .inl rfl
  · rename_i hfin
    by_cases hq : q = p
    · subst hq
      rw [Function.update_self]
      exact .inr ⟨rfl, Bool.not_eq_true _ ▸ hfin, rfl⟩
    · rw [Function.update_of_ne hq]
      exact .inl rfl

theorem Sound.catches (h : s.Sound env) {p n : Nat} {k : Callback} (hp : p < s.next)
    (hk : New n s.next true k) (hnew : ∀ q, (q, k) ∉ s.log) (hs : Catches s p k s') : s'.Sound env := by
  refine ⟨fun q => ?_, fun q hvoid => ?_, fun q hq => ?_, fun q k' hmem => ?_, fun q q' k' hmem hmem' => ?_,
    fun q side k' hslot => ?_, fun k' o hmem => ?_, ?_⟩
  · rw [hs.fate]
    rcases hs.cell q with heq | ⟨rfl, -, heq⟩
    · rw [heq]
      exact h.agrees q
    · rw [heq]
      exact h.agrees q
  · rcases hs.cell q with heq | ⟨rfl, -, heq⟩
    · rw [heq] at hvoid ⊢
      exact h.void q hvoid
    · rw [heq] at hvoid ⊢
      exact h.void q hvoid
  · rw [hs.next]
    exact h.fate_lt q (hs.fate q ▸ hq)
  · rw [hs.next]
    rcases hs.mem_log.mp hmem with hmem | ⟨rfl, rfl⟩
    · exact h.log_lt q k' hmem
    · exact ⟨hp, hk.below⟩
  · rcases hs.mem_log.mp hmem with hmem | ⟨rfl, rfl⟩
    · rcases hs.mem_log.mp hmem' with hmem' | ⟨rfl, rfl⟩
      · exact h.home q q' k' hmem hmem'
      · exact absurd hmem (hnew q)
    · rcases hs.mem_log.mp hmem' with hmem' | ⟨rfl, -⟩
      · exact absurd hmem' (hnew q')
      · rfl
  · rw [hs.mem_log]
    rcases hs.cell q with heq | ⟨rfl, -, heq⟩
    · obtain ⟨hmem, hside⟩ := h.slot q side k' (heq ▸ hslot)
      exact ⟨.inl hmem, hside⟩
    · rw [heq] at hslot
      cases side with
      | false =>
        obtain ⟨hmem, hside⟩ := h.slot q false k' hslot
        exact ⟨.inl hmem, hside⟩
      | true =>
        obtain rfl := Option.some.inj hslot
        exact ⟨.inr ⟨rfl, rfl⟩, hk.side⟩
  · rw [hs.calls] at hmem
    rcases List.mem_append.mp hmem with hmem | hmem
    · obtain ⟨q, hq⟩ := h.called k' o hmem
      exact ⟨q, hs.mem_log.mpr (.inl hq)⟩
    · split at hmem
      · cases List.mem_singleton.mp hmem
        exact ⟨p, hs.mem_log.mpr (.inr ⟨rfl, rfl⟩)⟩
      · cases hmem
  · refine h.framed.later ⟨Nat.le_of_eq hs.next.symm, fun q hq => (hs.fate q).symm ▸ hq⟩ (fun f hf => ?_)
      fun q hq => .inl (hs.promises ▸ hq)
    rw [hs.stack, List.mem_append] at hf
    rcases hf with hf | hf
    · split at hf
      · obtain rfl := List.mem_singleton.mp hf
        right
        show k.Below s'.next
        rw [hs.next]
        exact hk.below
      · cases hf
    · exact .inl hf

/-- What the end of a step does. -/
inductive Performed (env : Values V Err) (s : State V Err) : Effect V Err → State V Err → Prop
  | idle : Performed env s .idle s
  | late (p : Nat) (o : Outcome V Err) (h : (s.fate p).isSome = true) : Performed env s (.settle p o) s
  | settles {p : Nat} {o : Outcome V Err} {t : State V Err} (hnone : s.fate p = none)
      (h : Settles env s p (env.norm (s.cells p).isVoid o) t) : Performed env s (.settle p o) t
  | attaches {p : Nat} {a : Callback} {b : Option Callback} {leaves : V} {t : State V Err}
      (h : Attaches s p a b t) : Performed env s (.attach p a b leaves) t
  | catches {p : Nat} {k : Callback} {t : State V Err} (h : Catches s p k t) :
      Performed env s (.catch_ p k) t

theorem performed {e : Effect V Err} (h : s.Sound env) (hperform : s.perform env e = some s') :
    Performed env s e s' := by
  cases e with
  | idle =>
    cases hperform
    exact .idle
  | settle p o =>
    cases hperform
    cases hfin : (s.cells p).isFinished with
    | true =>
      rw [settle_finished hfin]
      exact .late p o (h.isFinished p ▸ hfin)
    | false =>
      have hnone : s.fate p = none := by
        rw [← Option.not_isSome_iff_eq_none, ← h.isFinished p, hfin]
        exact Bool.false_ne_true
      exact .settles hnone (State.settles hfin)
  | attach p a b leaves => exact .attaches (State.attaches hperform)
  | catch_ p k =>
    cases hperform
    exact .catches (State.catches s p k)

/-- What is attached has a number that was not given out before. -/
theorem Sound.unlogged (h : s.Sound env) (hquiet : Quiet env s s') (q : Nat) (k : Callback)
    (hk : k.number = s.next) : (q, k) ∉ s'.log := by
  rw [hquiet.log]
  exact (h.fresh (Nat.le_of_eq hk.symm)).1 q

theorem Sound.perform {t : State V Err} {e : Effect V Err} (h : s.Sound env)
    (hprep : Prepared env s s' e) (hperf : Performed env s' e t) : t.Sound env := by
  have hs' : s'.Sound env := h.quiet hprep.quiet hprep.framed
  have hadm := hprep.admissible
  cases hperf with
  | idle => exact hs'
  | late p o hsome => exact hs'
  | settles hnone hset => exact hs'.settles hadm hnone hset
  | attaches hatt =>
    obtain ⟨hp, ha, hb⟩ := hadm
    exact hs'.attaches (Nat.lt_of_lt_of_le hp hprep.quiet.next) ha hb (h.unlogged hprep.quiet) hatt
  | catches hcatch =>
    obtain ⟨hp, hk⟩ := hadm
    exact hs'.catches (Nat.lt_of_lt_of_le hp hprep.quiet.next) hk
      (fun q => h.unlogged hprep.quiet q _ hk.number) hcatch

/-- A step is a preparation and what it comes to in the end. -/
theorem step_cases {t : State V Err} {a : Act V Err} (h : s.Sound env) (hstep : s.step env a = some t) :
    ∃ s' e, s.prepare env a = some (s', e) ∧ Prepared env s s' e ∧ Performed env s' e t := by
  obtain ⟨⟨s', e⟩, hprep, hperform⟩ := Option.bind_eq_some_iff.mp hstep
  have hp := prepared h hprep
  exact ⟨s', e, hprep, hp, performed (h.quiet hp.quiet hp.framed) hperform⟩

theorem Sound.step {t : State V Err} {a : Act V Err} (h : s.Sound env) (hstep : s.step env a = some t) :
    t.Sound env := by
  obtain ⟨s', e, -, hprep, hperf⟩ := step_cases h hstep
  exact h.perform hprep hperf

theorem sound_of_run {t : State V Err} {as : List (Act V Err)}
    (h : Runs.run (step env) (init env) as = some t) : t.Sound env :=
  Runs.invariant (fun _ _ _ h hstep => h.step hstep) h sound_init

end State

end Nodeoze.Event.Promises
