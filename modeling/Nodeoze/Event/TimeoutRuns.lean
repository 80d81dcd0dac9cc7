import Nodeoze.Lib.Fallible
import Nodeoze.Event.Timeouts

/-!
# Timers and the promises they wait for

The timer in a block is one that runs, and its function keeps a copy of the promise; a timer that runs is in
the block of its copy.  So the block of a promise under a timeout does not go before the timer is over, and
the last copy that goes has no timer to give up.
-/

namespace Nodeoze.Event.Timeouts

open RefHeap Runs

/-- The function of a timer keeps the promise in the slot. -/
def Kept (s : State) (c : Nat) : Prop := ∃ e ev, s.events e = some ev ∧ ev.callback = some c

structure Inv (s : State) : Prop where
  counted : s.heap.Counted
  nodup : s.vars.Nodup
  bound : ∀ i ∈ s.vars, i < s.heap.slots
  named : ∀ {i b}, s.heap.blockOf i = some b → i ∈ s.vars ∨ Kept s i
  event : ∀ {e ev}, s.events e = some ev →
    e < s.nextEvent ∧ ev.active = true ∧ ev.running = !ev.closing ∧
      ∃ c b, ev.callback = some c ∧ c ∉ s.vars ∧ s.heap.blockOf c = some b ∧
        (ev.closing = false → ∃ t, s.heap.tagOf b = some t ∧ t.timer = some e)
  apart : ∀ {e e' ev ev'}, s.events e = some ev → s.events e' = some ev' → ev.callback = ev'.callback → e = e'
  timer : ∀ {b t e}, s.heap.tagOf b = some t → t.timer = some e →
    ∃ ev c, s.events e = some ev ∧ ev.closing = false ∧ ev.callback = some c ∧ s.heap.blockOf c = some b
  settling : ∀ {i}, .settle i ∈ s.frames → ∃ b, s.heap.blockOf i = some b
  firing : ∀ {e}, .timer e ∈ s.frames → s.events e ≠ none

def Shared.outcome (t : Shared) : Bool × Bool × ErrorCode := (t.resolved, t.rejected, t.err)

/-- Blocks and timers are not made again, what is settled stays, a timer does not go to another block, and one
that is given up does not run again. -/
structure Follows (s s' : State) : Prop where
  next : s.heap.next ≤ s'.heap.next
  settled : ∀ {b t'}, b < s.heap.next → s'.heap.tagOf b = some t' →
    ∃ t, s.heap.tagOf b = some t ∧ (t.finished = true → t'.outcome = t.outcome)
  nextEvent : s.nextEvent ≤ s'.nextEvent
  timers : ∀ {b t' e}, e < s.nextEvent → s'.heap.tagOf b = some t' → t'.timer = some e →
    ∃ t, s.heap.tagOf b = some t ∧ t.timer = some e
  closed : ∀ {e}, e < s.nextEvent → (∀ ev, s.events e = some ev → ev.closing = true) →
    ∀ ev, s'.events e = some ev → ev.closing = true

section

variable {s s' s'' : State} {i j : Nat}

theorem inv_create : Inv create where
  counted := Counted.empty
  nodup := List.nodup_nil
  bound _ h := nomatch h
  named h := nomatch h
  event h := nomatch h
  apart h := nomatch h
  timer h := nomatch h
  settling h := nomatch h
  firing h := nomatch h

theorem Follows.refl (s : State) : Follows s s :=
  ⟨Nat.le_refl _, fun _ ht => ⟨_, ht, fun _ => rfl⟩, Nat.le_refl _, fun _ ht he => ⟨_, ht, he⟩, fun _ h => h⟩

theorem finished_of_outcome {t t' : Shared} (h : t'.outcome = t.outcome) : t'.finished = t.finished := by
  have hresolved : t'.resolved = t.resolved := congrArg Prod.fst h
  have hrejected : t'.rejected = t.rejected := congrArg (fun o => o.2.1) h
  rw [Shared.finished, Shared.finished, hresolved, hrejected]

theorem Follows.trans (h : Follows s s') (h' : Follows s' s'') : Follows s s'' where
  next := Nat.le_trans h.next h'.next
  settled hb ht := by
    obtain ⟨t', ht', houtcome'⟩ := h'.settled (Nat.lt_of_lt_of_le hb h.next) ht
    obtain ⟨t₀, ht₀, houtcome⟩ := h.settled hb ht'
    refine ⟨t₀, ht₀, fun hf => ?_⟩
    have heq := houtcome hf
    rw [houtcome' (finished_of_outcome heq ▸ hf), heq]
  nextEvent := Nat.le_trans h.nextEvent h'.nextEvent
  timers he ht hte := by
    obtain ⟨t', ht', hte'⟩ := h'.timers (Nat.lt_of_lt_of_le he h.nextEvent) ht hte
    exact h.timers he ht' hte'
  closed he hclosed := h'.closed (Nat.lt_of_lt_of_le he h.nextEvent) (h.closed he hclosed)

/-- Only the heap changes, and it has no new tags. -/
theorem Follows.of_heap {H : RefHeap Unit Shared} {fs : List Frame} {vs : List Nat} (hnext : H.next = s.heap.next)
    (htags : ∀ {b t}, H.tagOf b = some t → s.heap.tagOf b = some t) :
    Follows s { s with heap := H, frames := fs, vars := vs } :=
  ⟨hnext.ge, fun _ ht => ⟨_, htags ht, fun _ => rfl⟩, Nat.le_refl _, fun _ ht he => ⟨_, htags ht, he⟩,
    fun _ h => h⟩

/-! ## Handles -/

/-- The promises that change are the program's, but for those that a function runs for. -/
theorem Inv.reheld (h : Inv s) {P : Nat → Prop} {H : RefHeap Unit Shared} (hr : Reheld P s.heap H)
    (hkept : ∀ l, P l → ¬Kept s l) (hvars : ∀ l b, P l → H.blockOf l = some b → l ∈ s.vars)
    (hidle : ∀ l, P l → .settle l ∉ s.frames) : Inv { s with heap := H } where
  counted := hr.counted
  nodup := h.nodup
  bound l hl := Nat.lt_of_lt_of_le (h.bound l hl) hr.slots
  named {l b} hb := by
    by_cases hP : P l
    · exact .inl (hvars l b hP hb)
    · rw [hr.others hP] at hb
      exact h.named hb
  event {e ev} he := by
    obtain ⟨hlt, hactive, hrunning, c, b, hc, hvar, hb, htimer⟩ := h.event he
    have hb' : H.blockOf c = some b := by
      rw [hr.others fun hP => hkept c hP ⟨e, ev, he, hc⟩, hb]
    refine ⟨hlt, hactive, hrunning, c, b, hc, hvar, hb', fun hclosing => ?_⟩
    obtain ⟨t, ht, hte⟩ := htimer hclosing
    exact ⟨t, hr.tag hb' ht, hte⟩
  apart := h.apart
  timer {b t e} ht hte := by
    obtain ⟨ev, c, he, hclosing, hc, hb⟩ := h.timer (hr.tags ht) hte
    refine ⟨ev, c, he, hclosing, hc, ?_⟩
    rw [hr.others fun hP => hkept c hP ⟨e, ev, he, hc⟩, hb]
  settling {l} hl := by
    obtain ⟨b, hb⟩ := h.settling hl
    refine ⟨b, ?_⟩
    rw [hr.others fun hP => hidle l hP hl, hb]
  firing := h.firing

theorem Inv.not_kept (h : Inv s) (hi : i ∈ s.vars) : ¬Kept s i := by
  rintro ⟨e, ev, he, hc⟩
  obtain ⟨-, -, -, c, b, hc', hvar, -⟩ := h.event he
  obtain rfl := Option.some.inj (hc'.symm.trans hc)
  exact hvar hi

/-- The last promise of a block has no timer to give up. -/
theorem unshare_eq (hH : s.heap.Counted) (hlast : ∀ b t e, s.heap.blockOf i = some b → s.heap.tagOf b = some t →
    t.timer = some e → ∃ c, c ≠ i ∧ s.heap.blockOf c = some b) :
    unshare s i = .ok { s with heap := s.heap.unshare i } := by
  cases hi : s.heap.bufs i with
  | none =>
    have hsame : s.heap.unshare i = s.heap := by rw [RefHeap.unshare, hi]
    rw [unshare, hi, hsame]
  | some k =>
    obtain ⟨B, hB, -⟩ := hH.wf.live i k hi
    have hb : s.heap.blockOf i = some k.blk := by rw [blockOf, hi, Option.map_some]
    have ht : s.heap.tagOf k.blk = some B.tag := by rw [tagOf, hB, Option.map_some]
    rw [unshare, RefHeap.unshare, hi]
    simp only [hB]
    split_ifs with hone
    · have hnone : B.tag.timer = none := by
        cases he : B.tag.timer with
        | none => rfl
        | some e =>
          obtain ⟨c, hne, hc⟩ := hlast _ _ e hb ht he
          exact absurd ((hH.refs_eq_one hb hB).mp hone c hc) hne
      have hcancel : cancelTimer s i = .ok s := by
        rw [cancelTimer, hb]
        simp only [ht, hnone]
      rw [hcancel]
      rfl
    · rfl

theorem destroy_eq (hH : s.heap.Counted) (hlast : ∀ b t e, s.heap.blockOf i = some b → s.heap.tagOf b = some t →
    t.timer = some e → ∃ c, c ≠ i ∧ s.heap.blockOf c = some b) :
    destroy s i = .ok { s with heap := s.heap.detach i } := by
  rw [destroy, unshare_eq hH hlast, ← hH.setBuf_unshare i]
  rfl

theorem Inv.unshare (h : Inv s) (hi : ¬Kept s i) :
    Timeouts.unshare s i = .ok { s with heap := s.heap.unshare i } := by
  refine unshare_eq h.counted fun b t e _ ht he => ?_
  obtain ⟨ev, c, hev, -, hc, hb⟩ := h.timer ht he
  exact ⟨c, fun heq => hi ⟨e, ev, hev, heq ▸ hc⟩, hb⟩

/-- What the operations on the program's promises come to. -/
structure Does (s s' : State) : Prop where
  inv : Inv s'
  follows : Follows s s'

theorem Does.trans (h : Does s s') (h' : Does s' s'') : Does s s'' := ⟨h'.inv, h.follows.trans h'.follows⟩

theorem Inv.does_reheld (h : Inv s) {P : Nat → Prop} {H : RefHeap Unit Shared} (hr : Reheld P s.heap H)
    (hP : ∀ l, P l → s.Idle l) : Does s { s with heap := H } where
  inv := h.reheld hr (fun l hl => h.not_kept (hP l hl).1) (fun l _ hl _ => (hP l hl).1) fun l hl => (hP l hl).2
  follows := Follows.of_heap hr.next hr.tags

/-- A new object. -/
theorem Inv.newVar (h : Inv s) :
    Does s (Timeouts.newVar (allocate s).2 (allocate s).1) ∧
      (Timeouts.newVar (allocate s).2 (allocate s).1).Idle s.heap.slots ∧
      (Timeouts.newVar (allocate s).2 (allocate s).1).heap.blockOf s.heap.slots = none := by
  have hnone : s.heap.blockOf s.heap.slots = none := h.counted.absent (Nat.le_refl _)
  have hpush := h.reheld (h.counted.reheld_push (P := fun _ => False)) (fun _ => False.elim) (fun _ _ => False.elim)
    fun _ => False.elim
  have hnew : s.heap.slots ∉ s.vars := fun hmem => Nat.lt_irrefl _ (h.bound _ hmem)
  refine ⟨⟨?_, Follows.of_heap rfl id⟩, ⟨List.mem_cons_self, fun hmem => ?_⟩, hnone⟩
  · exact
      { hpush with
        nodup := List.nodup_cons.mpr ⟨hnew, h.nodup⟩
        bound := by
          intro l hl
          rcases List.mem_cons.mp hl with rfl | hl
          · exact Nat.lt_succ_self _
          · exact hpush.bound l hl
        named := fun hb => (hpush.named hb).imp_left (List.mem_cons_of_mem _)
        event := by
          intro e ev he
          obtain ⟨hlt, hactive, hrunning, c, b, hc, hvar, hb, htimer⟩ := hpush.event he
          refine ⟨hlt, hactive, hrunning, c, b, hc, ?_, hb, htimer⟩
          rw [Timeouts.newVar, List.mem_cons, not_or]
          refine ⟨?_, hvar⟩
          rintro rfl
          exact absurd (hnone.symm.trans hb) (by simp) }
  · obtain ⟨b, hb⟩ := h.settling hmem
    rw [hnone] at hb
    contradiction

/-! ## Blocks and timers -/

/-- A block may change but for its timer. -/
theorem Inv.setShared (h : Inv s) {b : Nat} {t t' : Shared} (ht : s.heap.tagOf b = some t)
    (htimer : t'.timer = t.timer) : Inv (Timeouts.setShared s b t') := by
  have htag : ∀ {c u}, (s.heap.retag b t').tagOf c = some u → ∃ v, s.heap.tagOf c = some v ∧ u.timer = v.timer := by
    intro c u hu
    rw [tagOf_retag ht] at hu
    split_ifs at hu with hc
    · rw [← Option.some.inj hu, hc]
      exact ⟨t, ht, htimer⟩
    · exact ⟨u, hu, rfl⟩
  exact
    { h with
      counted := h.counted.retag b t'
      bound := fun l hl => (h.bound l hl).trans_eq (retag_slots _ _).symm
      named := fun hc => h.named ((blockOf_retag _ _ _).symm.trans hc)
      event := by
        intro e ev he
        obtain ⟨hlt, hactive, hrunning, c, d, hc, hvar, hd, hlive⟩ := h.event he
        refine ⟨hlt, hactive, hrunning, c, d, hc, hvar, (blockOf_retag _ _ _).trans hd, fun hclosing => ?_⟩
        obtain ⟨u, hu, hue⟩ := hlive hclosing
        rw [Timeouts.setShared, tagOf_retag ht]
        split_ifs with hdb
        · obtain rfl : u = t := Option.some.inj (hu.symm.trans (hdb ▸ ht))
          exact ⟨t', rfl, htimer.trans hue⟩
        · exact ⟨u, hu, hue⟩
      timer := by
        intro c u e hu hue
        obtain ⟨v, hv, heq⟩ := htag hu
        obtain ⟨ev, d, he, hclosing, hd, hc⟩ := h.timer hv (heq ▸ hue)
        exact ⟨ev, d, he, hclosing, hd, (blockOf_retag _ _ _).trans hc⟩
      settling := by
        intro l hl
        obtain ⟨c, hc⟩ := h.settling hl
        exact ⟨c, (blockOf_retag _ _ _).trans hc⟩ }

theorem follows_setShared {b : Nat} {t t' : Shared} (ht : s.heap.tagOf b = some t)
    (houtcome : t.finished = true → t'.outcome = t.outcome)
    (htimer : ∀ e, e < s.nextEvent → t'.timer = some e → t.timer = some e) :
    Follows s (Timeouts.setShared s b t') where
  next := by
    rw [Timeouts.setShared, retag]
    split <;> exact Nat.le_refl _
  settled {c u} _ hu := by
    rw [Timeouts.setShared, tagOf_retag ht] at hu
    split_ifs at hu with hc
    · rw [← Option.some.inj hu, hc]
      exact ⟨t, ht, houtcome⟩
    · exact ⟨u, hu, fun _ => rfl⟩
  nextEvent := Nat.le_refl _
  timers {c u e} he hu hue := by
    rw [Timeouts.setShared, tagOf_retag ht] at hu
    split_ifs at hu with hc
    · rw [← Option.some.inj hu] at hue
      exact ⟨t, hc ▸ ht, htimer e he hue⟩
    · exact ⟨u, hu, hue⟩
  closed _ h := h

/-- The timer of a block is given up. -/
def disarm (s : State) (b : Nat) (t : Shared) (e : Nat) (ev : Timer) : State :=
  Timeouts.setShared (setEvent s e (some { ev with running := false, closing := true })) b { t with timer := none }

theorem disarm_events (b : Nat) (t : Shared) (e : Nat) (ev : Timer) (e' : Nat) : (disarm s b t e ev).events e' =
    if e' = e then some { ev with running := false, closing := true } else s.events e' :=
  Function.update_apply _ _ _ _

theorem Inv.disarm (h : Inv s) {b e : Nat} {t : Shared} {ev : Timer} (ht : s.heap.tagOf b = some t)
    (hte : t.timer = some e) (he : s.events e = some ev) : Inv (Timeouts.disarm s b t e ev) := by
  have hevent : ∀ {e' ev'}, (Timeouts.disarm s b t e ev).events e' = some ev' →
      ∃ ev₀, s.events e' = some ev₀ ∧ ev'.active = ev₀.active ∧ ev'.callback = ev₀.callback ∧
        (e' = e → ev'.running = false ∧ ev'.closing = true) ∧ (e' ≠ e → ev' = ev₀) := by
    intro e' ev' he'
    rw [disarm_events] at he'
    split_ifs at he' with heq
    · obtain rfl := Option.some.inj he'
      exact ⟨ev, heq ▸ he, rfl, rfl, fun _ => ⟨rfl, rfl⟩, fun hne => absurd heq hne⟩
    · exact ⟨ev', he', rfl, rfl, fun h' => absurd h' heq, fun _ => rfl⟩
  have htag : ∀ {c u}, (s.heap.retag b { t with timer := none }).tagOf c = some u → ∀ {e'}, u.timer = some e' →
      s.heap.tagOf c = some u ∧ e' ≠ e := by
    intro c u hu e' hue
    rw [tagOf_retag ht] at hu
    split_ifs at hu with hc
    · rw [← Option.some.inj hu] at hue
      contradiction
    · refine ⟨hu, ?_⟩
      rintro rfl
      obtain ⟨ev₁, d, hev, -, hd, hdc⟩ := h.timer hu hue
      obtain ⟨ev₂, d', hev', -, hd', hdb⟩ := h.timer ht hte
      rw [hev] at hev'
      obtain rfl := Option.some.inj hev'
      rw [hd] at hd'
      obtain rfl := Option.some.inj hd'
      exact hc (Option.some.inj (hdc.symm.trans hdb))
  have hother : ∀ {e'}, e' ≠ e → (Timeouts.disarm s b t e ev).events e' = s.events e' := by
    intro e' hne
    rw [disarm_events, if_neg hne]
  refine ⟨h.counted.retag b _, h.nodup, fun l hl => (h.bound l hl).trans_eq (retag_slots _ _).symm, ?_, ?_, ?_, ?_, ?_,
    ?_⟩
  · intro l c hl
    refine (h.named ((blockOf_retag _ _ _).symm.trans hl)).imp_right ?_
    rintro ⟨e', ev', he', hc'⟩
    by_cases heq : e' = e
    · refine ⟨e', _, by rw [disarm_events, if_pos heq], ?_⟩
      obtain rfl : ev' = ev := Option.some.inj (he'.symm.trans (heq ▸ he))
      exact hc'
    · exact ⟨e', ev', by rw [hother heq, he'], hc'⟩
  · intro e' ev' he'
    obtain ⟨ev₀, he₀, hactive', hcallback, hself, hne⟩ := hevent he'
    obtain ⟨hlt, hactive, hrunning, c, d, hc, hvar, hd, hlive⟩ := h.event he₀
    refine ⟨hlt, hactive'.trans hactive, ?_, c, d, hcallback.trans hc, hvar, (blockOf_retag _ _ _).trans hd, ?_⟩
    · by_cases heq : e' = e
      · rw [(hself heq).1, (hself heq).2]
        rfl
      · rw [hne heq, hrunning]
    · intro hclosing
      by_cases heq : e' = e
      · rw [(hself heq).2] at hclosing
        contradiction
      · obtain ⟨u, hu, hue⟩ := hlive (hne heq ▸ hclosing)
        refine ⟨u, ?_, hue⟩
        change (s.heap.retag b _).tagOf d = some u
        rw [tagOf_retag ht, if_neg, hu]
        rintro rfl
        obtain rfl := Option.some.inj (hu.symm.trans ht)
        exact heq (Option.some.inj (hue.symm.trans hte))
  · intro e₁ e₂ ev₁ ev₂ h₁ h₂ hcallback
    obtain ⟨ev₃, h₃, -, hcallback₁, -⟩ := hevent h₁
    obtain ⟨ev₄, h₄, -, hcallback₂, -⟩ := hevent h₂
    exact h.apart h₃ h₄ (hcallback₁.symm.trans (hcallback.trans hcallback₂))
  · intro c u e' hu hue
    obtain ⟨hu', hne⟩ := htag hu hue
    obtain ⟨ev', d, he', hclosing, hd, hc⟩ := h.timer hu' hue
    exact ⟨ev', d, by rw [hother hne, he'], hclosing, hd, (blockOf_retag _ _ _).trans hc⟩
  · intro l hl
    obtain ⟨c, hc⟩ := h.settling hl
    exact ⟨c, (blockOf_retag _ _ _).trans hc⟩
  · intro e' he'
    rw [disarm_events]
    split_ifs
    · exact Option.some_ne_none _
    · exact h.firing he'

theorem follows_disarm {b e : Nat} {t : Shared} {ev : Timer} (ht : s.heap.tagOf b = some t) :
    Follows s (disarm s b t e ev) := by
  have hsame : Follows s (Timeouts.setShared s b { t with timer := none }) := 
    follows_setShared ht (fun _ => rfl) fun _ _ hnone => nomatch hnone
  refine ⟨hsame.next, hsame.settled, Nat.le_refl _, hsame.timers, fun {e'} _ hover ev' he' => ?_⟩
  rw [disarm_events] at he'
  split_ifs at he' with heq
  · rw [← Option.some.inj he']
  · exact hover ev' he'

/-- `cancel_timer` finds no block, or no timer, or one that runs. -/
theorem Inv.cancelTimer (h : Inv s) (i : Nat) :
    (s.heap.blockOf i = none ∧ cancelTimer s i = .ok s) ∨
    ∃ b t, s.heap.blockOf i = some b ∧ s.heap.tagOf b = some t ∧
      ((t.timer = none ∧ Timeouts.cancelTimer s i = .ok s) ∨
        ∃ e ev, t.timer = some e ∧ s.events e = some ev ∧
          Timeouts.cancelTimer s i = .ok (Timeouts.disarm s b t e ev)) := by
  rw [Timeouts.cancelTimer]
  cases hb : s.heap.blockOf i with
  | none => exact .inl ⟨rfl, rfl⟩
  | some b =>
    obtain ⟨t, ht⟩ := h.counted.tag hb
    refine .inr ⟨b, t, rfl, ht, ?_⟩
    simp only [ht]
    cases hte : t.timer with
    | none => exact .inl ⟨rfl, rfl⟩
    | some e =>
      obtain ⟨ev, c, he, hclosing, -⟩ := h.timer ht hte
      obtain ⟨-, hactive, -⟩ := h.event he
      refine .inr ⟨e, ev, rfl, he, ?_⟩
      have hcancel : cancel s e = .ok (setEvent s e (some { ev with running := false, closing := true })) := by
        rw [cancel, he]
        simp only [hactive, hclosing]
        rfl
      simp only [hcancel]
      rfl

/-- What the program and libuv do with the frames. -/
theorem Inv.withFrames (h : Inv s) (fs : List Frame)
    (hsettle : ∀ i, .settle i ∈ fs → .settle i ∈ s.frames ∨ ∃ b, s.heap.blockOf i = some b)
    (htimer : ∀ e, .timer e ∈ fs → .timer e ∈ s.frames ∨ s.events e ≠ none) : Does s { s with frames := fs } where
  inv := { h with
    settling := fun hi => (hsettle _ hi).elim h.settling id
    firing := fun he => (htimer _ he).elim h.firing id }
  follows := Follows.of_heap rfl id

/-! ## A new timer -/

/-- The timer that `arm_timer` makes, with the copy that its function keeps. -/
def armed (s : State) (i b : Nat) (t : Shared) : State :=
  let H := s.heap.retag b { t with timer := some s.nextEvent }
  { s with
    heap := H.push.shareFrom H.slots i
    events := Function.update s.events s.nextEvent (some ⟨true, true, false, some H.slots⟩)
    nextEvent := s.nextEvent + 1 }

theorem Inv.armed (h : Inv s) {i b : Nat} {t : Shared} (hb : s.heap.blockOf i = some b)
    (ht : s.heap.tagOf b = some t) (hnone : t.timer = none) : Does s (Timeouts.armed s i b t) := by
  set H := s.heap.retag b { t with timer := some s.nextEvent } with hH
  have hcounted : H.Counted := h.counted.retag b _
  have hslots : H.slots = s.heap.slots := retag_slots _ _
  have hempty : H.push.blockOf H.slots = none := hcounted.absent (Nat.le_refl _)
  obtain ⟨hshare, hcopy⟩ := hcounted.push.reheld_share (i := H.slots) (Nat.lt_succ_self _) hempty i
  have hblock : ∀ {l}, l ≠ H.slots → (H.push.shareFrom H.slots i).blockOf l = s.heap.blockOf l := by
    intro l hl
    rw [hshare.others hl, blockOf_push, hH, blockOf_retag]
  have hcopy' : (H.push.shareFrom H.slots i).blockOf H.slots = some b := by
    rw [hcopy, blockOf_push, hH, blockOf_retag, hb]
  have htag : ∀ {c u}, (H.push.shareFrom H.slots i).tagOf c = some u →
      (c = b ∧ u = { t with timer := some s.nextEvent }) ∨ (c ≠ b ∧ s.heap.tagOf c = some u) := by
    intro c u hu
    have hu' := hshare.tags hu
    rw [tagOf_push, hH, tagOf_retag ht] at hu'
    split_ifs at hu' with hc
    · exact .inl ⟨hc, (Option.some.inj hu').symm⟩
    · exact .inr ⟨hc, hu'⟩
  have hold : ∀ {e ev}, s.events e = some ev → e ≠ s.nextEvent := fun he => Nat.ne_of_lt (h.event he).1
  have hevent : ∀ {e}, e ≠ s.nextEvent → (Timeouts.armed s i b t).events e = s.events e :=
    fun hne => Function.update_of_ne hne _ _
  have hself : (Timeouts.armed s i b t).events s.nextEvent = some ⟨true, true, false, some H.slots⟩ :=
    Function.update_self _ _ _
  have hfar : ∀ {l c}, s.heap.blockOf l = some c → l ≠ H.slots :=
    fun hl => Nat.ne_of_lt (hslots ▸ h.counted.lt_slots hl)
  have hkept : ∀ {l}, Kept s l → Kept (Timeouts.armed s i b t) l := by
    rintro l ⟨e, ev, he, hc⟩
    exact ⟨e, ev, (hevent (hold he)).trans he, hc⟩
  constructor
  · refine ⟨hshare.counted, h.nodup, fun l hl => ?_, fun {l c} hl => ?_, fun {e ev} he => ?_, ?_, ?_, ?_, ?_⟩
    · have hlt := h.bound l hl
      exact Nat.lt_of_lt_of_le (hslots ▸ hlt) (Nat.le_trans (Nat.le_succ _) hshare.slots)
    · by_cases hnew : l = H.slots
      · exact .inr ⟨_, _, hself, by rw [hnew]⟩
      · exact (h.named ((hblock hnew).symm.trans hl)).imp_right hkept
    · by_cases hnew : e = s.nextEvent
      · obtain rfl := hnew
        obtain rfl := Option.some.inj (hself.symm.trans he)
        refine ⟨Nat.lt_succ_self _, rfl, rfl, _, b, rfl, fun hmem => ?_, hcopy',
          fun _ => ⟨{ t with timer := some s.nextEvent }, ?_, rfl⟩⟩
        · exact absurd (h.bound _ hmem) (hslots ▸ Nat.lt_irrefl _)
        · refine hshare.tag hcopy' ?_
          rw [tagOf_push, hH, tagOf_retag ht, if_pos rfl]
      · rw [hevent hnew] at he
        obtain ⟨hlt, hactive, hrunning, c, d, hc, hvar, hd, hlive⟩ := h.event he
        have hd' := (hblock (hfar hd)).trans hd
        refine ⟨Nat.lt_succ_of_lt hlt, hactive, hrunning, c, d, hc, hvar, hd', fun hclosing => ?_⟩
        obtain ⟨u, hu, hue⟩ := hlive hclosing
        refine ⟨u, hshare.tag hd' ?_, hue⟩
        rw [tagOf_push, hH, tagOf_retag ht, if_neg, hu]
        rintro rfl
        obtain rfl := Option.some.inj (hu.symm.trans ht)
        rw [hnone] at hue
        contradiction
    · have hnew : ∀ {e ev}, e ≠ s.nextEvent → (Timeouts.armed s i b t).events e = some ev →
          ev.callback ≠ some H.slots := by
        intro e ev hne he hc
        rw [hevent hne] at he
        obtain ⟨-, -, -, c, d, hc', -, hd, -⟩ := h.event he
        exact hfar hd (Option.some.inj (hc'.symm.trans hc))
      intro e e' ev ev' he he' hcallback
      by_cases h₁ : e = s.nextEvent
      · rw [h₁, hself] at he
        obtain rfl := Option.some.inj he
        by_cases h₂ : e' = s.nextEvent
        · rw [h₁, h₂]
        · exact absurd hcallback.symm (hnew h₂ he')
      · by_cases h₂ : e' = s.nextEvent
        · rw [h₂, hself] at he'
          obtain rfl := Option.some.inj he'
          exact absurd hcallback (hnew h₁ he)
        · rw [hevent h₁] at he
          rw [hevent h₂] at he'
          exact h.apart he he' hcallback
    · intro c u e hu hue
      rcases htag hu with ⟨rfl, rfl⟩ | ⟨-, hu'⟩
      · obtain rfl := Option.some.inj hue
        exact ⟨_, _, hself, rfl, rfl, hcopy'⟩
      · obtain ⟨ev, d, he, hclosing, hd, hc⟩ := h.timer hu' hue
        exact ⟨ev, d, (hevent (hold he)).trans he, hclosing, hd, (hblock (hfar hc)).trans hc⟩
    · intro l hl
      obtain ⟨c, hc⟩ := h.settling hl
      exact ⟨c, (hblock (hfar hc)).trans hc⟩
    · intro e he
      obtain ⟨ev, hev⟩ := Option.ne_none_iff_exists'.mp (h.firing he)
      rw [hevent (hold hev)]
      exact h.firing he
  · have hretag : Follows s (Timeouts.setShared s b { t with timer := some s.nextEvent }) :=
      follows_setShared ht (fun _ => rfl) fun e he hte => absurd (Option.some.inj hte) (Nat.ne_of_gt he)
    have hnext : (H.push.shareFrom H.slots i).next = H.next := hshare.next
    refine ⟨hretag.next.trans_eq hnext.symm, fun hc hu => hretag.settled hc (hshare.tags hu), Nat.le_succ _,
      fun he hu hue => hretag.timers he (hshare.tags hu) hue, ?_⟩
    intro e he hover
    rw [hevent (Nat.ne_of_lt he)]
    exact hover

/-- `arm_timer`, also where there is no new timer. -/
theorem Inv.armTimer (h : Inv s) (i : Nat) (ok : Bool) :
    ∃ s', Timeouts.armTimer s i ok = .ok s' ∧ Does s s' ∧ s'.vars = s.vars := by
  have hcancelled : ∃ s₁, Timeouts.cancelTimer s i = .ok s₁ ∧ Does s s₁ ∧ s₁.vars = s.vars ∧
      ∀ b t, s₁.heap.blockOf i = some b → s₁.heap.tagOf b = some t → t.timer = none := by
    rcases h.cancelTimer i with ⟨hnone, heq⟩ | ⟨b, t, hb, ht, ⟨htimer, heq⟩ | ⟨e, ev, hte, he, heq⟩⟩
    · refine ⟨s, heq, ⟨h, Follows.refl s⟩, rfl, fun b t hb => ?_⟩
      rw [hnone] at hb
      contradiction
    · refine ⟨s, heq, ⟨h, Follows.refl s⟩, rfl, fun c u hc hu => ?_⟩
      obtain rfl := Option.some.inj (hb.symm.trans hc)
      rwa [← Option.some.inj (ht.symm.trans hu)]
    · refine ⟨_, heq, ⟨h.disarm ht hte he, follows_disarm ht⟩, rfl, fun c u hc hu => ?_⟩
      obtain rfl := Option.some.inj (hb.symm.trans ((blockOf_retag _ _ _).symm.trans hc))
      change (s.heap.retag b _).tagOf b = some u at hu
      rw [tagOf_retag ht, if_pos rfl] at hu
      rw [← Option.some.inj hu]
  obtain ⟨s₁, hcancel, hdoes, hvars, hnone⟩ := hcancelled
  have hinv := hdoes.inv
  rw [Timeouts.armTimer, hcancel]
  simp only [bind, Except.bind]
  cases hb : s₁.heap.blockOf i with
  | none => exact ⟨s₁, rfl, hdoes, hvars⟩
  | some b =>
    obtain ⟨t, ht⟩ := hinv.counted.tag hb
    have htimer := hnone b t hb ht
    simp only [ht]
    cases ok with
    | true =>
      refine ⟨Timeouts.armed s₁ i b t, ?_, hdoes.trans (hinv.armed hb ht htimer), hvars⟩
      simp only [createTimer, if_true, Timeouts.setShared, setEvent, allocate, schedule, Function.update_self,
        bind, Except.bind, Function.update_idem, Timeouts.armed]
      rfl
    | false =>
      -- the function goes with its copy
      set s₂ := Timeouts.setShared s₁ b { t with timer := none } with hs₂
      have hdoes₂ : Does s s₂ := hdoes.trans ⟨hinv.setShared ht htimer.symm, follows_setShared ht (fun _ => rfl)
        fun _ _ hnone => absurd hnone (by simp)⟩
      have hinv₂ := hdoes₂.inv
      set c := s₂.heap.slots with hc
      have hempty : s₂.heap.blockOf c = none := hinv₂.counted.absent (Nat.le_refl _)
      obtain ⟨hshare, hcopy⟩ := hinv₂.counted.push.reheld_share (i := c) (Nat.lt_succ_self _) hempty i
      have hall := (hinv₂.counted.reheld_push.trans hshare).trans (hshare.counted.reheld_detach c)
      have hgone : (((s₂.heap.push.shareFrom c i).detach c)).blockOf c = none := by
        rw [blockOf_detach, if_pos rfl]
      have hdestroy : Timeouts.destroy { s₂ with heap := s₂.heap.push.shareFrom c i } c =
          .ok { s₂ with heap := (s₂.heap.push.shareFrom c i).detach c } := by
        refine destroy_eq hshare.counted fun d u e hd hu hue => ?_
        obtain rfl : d = b := by
          have hblock : s₂.heap.blockOf i = some d := (hcopy.symm.trans hd :)
          rw [hs₂, Timeouts.setShared, blockOf_retag, hb] at hblock
          exact (Option.some.inj hblock).symm
        have hu' : s₂.heap.tagOf d = some u := hshare.tags hu
        rw [hs₂, Timeouts.setShared, tagOf_retag ht, if_pos rfl] at hu'
        rw [← Option.some.inj hu'] at hue
        contradiction
      refine ⟨_, hdestroy, ⟨hinv₂.reheld hall ?_ ?_ ?_, hdoes₂.follows.trans ?_⟩, hvars⟩
      · rintro l rfl ⟨e, ev, he, hl⟩
        obtain ⟨-, -, -, l', d, hl', -, hd, -⟩ := hinv₂.event he
        obtain rfl := Option.some.inj (hl'.symm.trans hl)
        rw [hempty] at hd
        contradiction
      · rintro l d rfl hd
        rw [hgone] at hd
        contradiction
      · rintro l rfl hl
        obtain ⟨d, hd⟩ := hinv₂.settling hl
        rw [hempty] at hd
        contradiction
      · exact Follows.of_heap hall.next hall.tags

/-! ## Functions of the program -/

/-- `resolve` and `reject` find no block, or a settled promise, or settle it. -/
theorem Inv.settle (h : Inv s) (i : Nat) (outcome : Shared → Shared) (houtcome : ∀ t, (outcome t).timer = t.timer)
    (called : Bool) : ∃ s', Timeouts.settle s i outcome called = .ok s' ∧ Does s s' ∧
      ∀ b t, s.heap.blockOf i = some b → s.heap.tagOf b = some t → t.finished = false →
        s' = { Timeouts.setShared s b (outcome t) with
          frames := if called then .settle i :: s.frames else s.frames } := by
  rw [Timeouts.settle]
  cases hb : s.heap.blockOf i with
  | none => exact ⟨s, rfl, ⟨h, Follows.refl s⟩, fun b t hb => nomatch hb⟩
  | some b =>
    obtain ⟨t, ht⟩ := h.counted.tag hb
    simp only [ht]
    cases hfinished : t.finished with
    | true =>
      refine ⟨s, rfl, ⟨h, Follows.refl s⟩, fun c u hc hu hunfinished => ?_⟩
      obtain rfl := Option.some.inj hc
      obtain rfl := Option.some.inj (ht.symm.trans hu)
      rw [hfinished] at hunfinished
      contradiction
    | false =>
      have hset : Does s (Timeouts.setShared s b (outcome t)) :=
        ⟨h.setShared ht (houtcome t), follows_setShared ht (fun hf => absurd (hf.symm.trans hfinished) (by simp))
          fun _ _ hte => houtcome t ▸ hte⟩
      have hstate : ∀ c u, some b = some c → s.heap.tagOf c = some u →
          Timeouts.setShared s b (outcome t) = Timeouts.setShared s c (outcome u) := by
        intro c u hc hu
        obtain rfl := Option.some.inj hc
        rw [Option.some.inj (ht.symm.trans hu)]
      cases called with
      | false => exact ⟨_, rfl, hset, fun c u hc hu _ => by rw [hstate c u hc hu]; rfl⟩
      | true =>
        refine ⟨_, rfl, hset.trans (hset.inv.withFrames (.settle i :: s.frames) (fun j hj => ?_) fun e he => ?_),
          fun c u hc hu _ => by rw [hstate c u hc hu]; rfl⟩
        · rcases List.mem_cons.mp hj with heq | hj
          · obtain rfl := Frame.settle.inj heq
            exact .inr ⟨b, (blockOf_retag _ _ _).trans hb⟩
          · exact .inl hj
        · rw [List.mem_cons, or_iff_right Frame.noConfusion] at he
          exact .inl he

theorem Inv.direct (h : Inv s) (i : Nat) : Does s (Timeouts.direct s i) := by
  rw [Timeouts.direct]
  split_ifs with hfinished
  · refine h.withFrames _ (fun j hj => ?_) fun e he => ?_
    · rcases List.mem_cons.mp hj with heq | hj
      · obtain rfl := Frame.settle.inj heq
        cases hb : s.heap.blockOf j with
        | none =>
          rw [isFinished, hb] at hfinished
          contradiction
        | some b => exact .inr ⟨b, rfl⟩
      · exact .inl hj
    · rw [List.mem_cons, or_iff_right Frame.noConfusion] at he
      exact .inl he
  · exact ⟨h, Follows.refl s⟩

theorem Inv.unwind (h : Inv s) : ∃ fs, Timeouts.unwind s = .ok { s with frames := fs } ∧
    Does s { s with frames := fs } := by
  rw [Timeouts.unwind]
  split
  · rename_i e fs hfs
    refine ⟨fs, ?_, h.withFrames _ (fun _ hj => .inl (hfs ▸ List.mem_cons_of_mem _ hj))
      fun _ he => .inl (hfs ▸ List.mem_cons_of_mem _ he)⟩
    rw [if_neg (h.firing (hfs ▸ List.mem_cons_self))]
  · exact ⟨s.frames, rfl, h, Follows.refl s⟩

theorem Inv.returns (h : Inv s) (last : Bool) : Timeouts.returns s last = .error .gone ∨
    ∃ s', Timeouts.returns s last = .ok s' ∧ Does s s' := by
  rw [Timeouts.returns]
  split
  · rename_i i fs hfs
    obtain ⟨b, hb⟩ := h.settling (hfs ▸ List.mem_cons_self)
    obtain ⟨t, ht⟩ := h.counted.tag hb
    have hrest : Does s { s with frames := fs } :=
      h.withFrames _ (fun _ hj => .inl (hfs ▸ List.mem_cons_of_mem _ hj))
        fun _ he => .inl (hfs ▸ List.mem_cons_of_mem _ he)
    simp only [hb, ht, Option.some_ne_none, if_false]
    split_ifs with hlast
    · refine .inr ⟨_, rfl, h.withFrames _ (fun j hj => ?_) fun e he => ?_⟩
      · rw [List.mem_cons, or_iff_right Frame.noConfusion] at hj
        exact .inl (hfs ▸ List.mem_cons_of_mem _ hj)
      · rw [List.mem_cons, or_iff_right Frame.noConfusion] at he
        exact .inl (hfs ▸ List.mem_cons_of_mem _ he)
    · obtain ⟨fs', hunwind, hdoes⟩ := hrest.inv.unwind
      exact .inr ⟨_, hunwind, hrest.trans hdoes⟩
  · rename_i fs hfs
    have hrest : Does s { s with frames := fs } :=
      h.withFrames _ (fun _ hj => .inl (hfs ▸ List.mem_cons_of_mem _ hj))
        fun _ he => .inl (hfs ▸ List.mem_cons_of_mem _ he)
    obtain ⟨fs', hunwind, hdoes⟩ := hrest.inv.unwind
    exact .inr ⟨_, hunwind, hrest.trans hdoes⟩
  · exact .inl rfl

/-! ## What libuv calls -/

/-- What the promise of a timer is when the timer is over. -/
def Shared.expired (t : Shared) : Shared :=
  if t.finished then { t with timer := none } else { t with timer := none, err := timedOut, rejected := true }

/-- The timer of a call is given up first. -/
theorem Inv.fires (h : Inv s) {e : Nat} {ev : Timer} (he : s.events e = some ev) (hrun : ev.running = true) :
    ∃ c b t s₁, ev.callback = some c ∧ s.heap.tagOf b = some t ∧ t.timer = some e ∧
      Timeouts.cancelTimer { s with frames := [.timer e] } c = .ok s₁ ∧ Does s s₁ ∧ s₁.frames = [.timer e] ∧
      s₁.heap.blockOf c = some b ∧
      (∀ d, s₁.heap.tagOf d = if d = b then some { t with timer := none } else s.heap.tagOf d) ∧
      ∀ ev', s₁.events e = some ev' → ev'.closing = true := by
  obtain ⟨-, -, hrunning, c, b, hc, -, hb, hlive⟩ := h.event he
  have hclosing : ev.closing = false := by
    rw [hrunning] at hrun
    simpa using hrun
  obtain ⟨t, ht, hte⟩ := hlive hclosing
  have hframe : Does s { s with frames := [.timer e] } := by
    refine h.withFrames _ (fun _ hj => ?_) fun e' he' => ?_
    · exact absurd (List.mem_singleton.mp hj) Frame.noConfusion
    · obtain rfl := Frame.timer.inj (List.mem_singleton.mp he')
      exact .inr (by rw [he]; exact Option.some_ne_none _)
  rcases hframe.inv.cancelTimer c with ⟨hnone, -⟩ | ⟨d, u, hd, hu, hcases⟩
  · exact absurd (hb.symm.trans hnone) (Option.some_ne_none _)
  obtain rfl := Option.some.inj (hb.symm.trans hd)
  obtain rfl := Option.some.inj (ht.symm.trans hu)
  rcases hcases with ⟨hnone, -⟩ | ⟨e', ev', hue, he', heq⟩
  · exact absurd (hte.symm.trans hnone) (Option.some_ne_none _)
  obtain rfl := Option.some.inj (hte.symm.trans hue)
  obtain rfl := Option.some.inj (he.symm.trans he')
  refine ⟨c, b, t, _, hc, ht, hte, heq, hframe.trans ⟨hframe.inv.disarm ht hte he, follows_disarm ht⟩, rfl,
    (blockOf_retag _ _ _).trans hb, tagOf_retag ht _, fun ev' he' => ?_⟩
  rw [disarm_events, if_pos rfl] at he'
  rw [← Option.some.inj he']

theorem Inv.onTimer (h : Inv s) (e : Nat) (called : Bool) : Timeouts.onTimer s e called = .error .gone ∨
    ∃ s' b t, Timeouts.onTimer s e called = .ok s' ∧ Does s s' ∧ s.heap.tagOf b = some t ∧ t.timer = some e ∧
      s'.heap.tagOf b = some t.expired ∧ (∀ c, c ≠ b → s'.heap.tagOf c = s.heap.tagOf c) ∧
      ∀ ev, s'.events e = some ev → ev.closing = true := by
  rw [Timeouts.onTimer]
  split
  · rename_i ev hfs he
    split_ifs with hrun
    · obtain ⟨c, b, t, s₁, hc, ht, hte, hcancel, hdoes₁, hframes₁, hb₁, htags₁, hover⟩ := h.fires he hrun
      have ht₁ : s₁.heap.tagOf b = some { t with timer := none } := by rw [htags₁, if_pos rfl]
      have hfinished : isFinished s₁ c = t.finished := by
        rw [isFinished, hb₁]
        simp only [ht₁]
        rfl
      simp only [hc]
      rw [hcancel]
      refine .inr ?_
      cases hf : t.finished with
      | true =>
        obtain ⟨fs, hunwind, hdoes⟩ := hdoes₁.inv.unwind
        refine ⟨{ s₁ with frames := fs }, b, t, ?_, hdoes₁.trans hdoes, ht, hte, ?_, ?_, hover⟩
        · simp only [bind, Except.bind, hfinished, hf, if_true, hframes₁]
          exact hunwind
        · rw [Shared.expired, if_pos hf]
          exact ht₁
        · intro d hd
          exact (htags₁ d).trans (if_neg hd)
      | false =>
        have hexpired : t.expired = { t with timer := none, err := timedOut, rejected := true } := by
          rw [Shared.expired, hf]
          rfl
        obtain ⟨s₂, hreject, hdoes₂, hstate⟩ := hdoes₁.inv.settle c
          (fun t => { t with err := timedOut, rejected := true }) (fun _ => rfl) called
        have hs₂ := hstate b _ hb₁ ht₁ hf
        have htags₂ : ∀ d, s₂.heap.tagOf d = if d = b then some t.expired else s.heap.tagOf d := by
          intro d
          rw [hs₂, hexpired]
          refine (tagOf_retag ht₁ _ d).trans ?_
          rw [htags₁]
          split_ifs <;> rfl
        have hevents₂ : s₂.events = s₁.events := by
          rw [hs₂]
          rfl
        have hends : s₂.heap.tagOf b = some t.expired ∧ (∀ c, c ≠ b → s₂.heap.tagOf c = s.heap.tagOf c) ∧
            ∀ ev, s₂.events e = some ev → ev.closing = true := by
          refine ⟨by rw [htags₂, if_pos rfl], fun d hd => by rw [htags₂, if_neg hd], ?_⟩
          rw [hevents₂]
          exact hover
        simp only [bind, Except.bind, hfinished, hf, Bool.false_eq_true, if_false]
        rw [reject, hreject]
        simp only
        split
        · obtain ⟨fs, hunwind, hdoes⟩ := hdoes₂.inv.unwind
          exact ⟨_, b, t, hunwind, (hdoes₁.trans hdoes₂).trans hdoes, ht, hte, hends⟩
        · exact ⟨s₂, b, t, rfl, hdoes₁.trans hdoes₂, ht, hte, hends⟩
    · exact .inl rfl
  · exact .inl rfl

/-- The timer is freed, with the copy that its function keeps. -/
theorem Inv.onClose (h : Inv s) (e : Nat) : Timeouts.onClose s e = .error .gone ∨
    ∃ s', Timeouts.onClose s e = .ok s' ∧ Does s s' := by
  rw [Timeouts.onClose]
  split
  · rename_i ev hfs he
    obtain ⟨hlt, -, -, c, b, hc, hvar, hb, -⟩ := h.event he
    split_ifs with hclosing
    · have hdestroy : Timeouts.destroy s c = .ok { s with heap := s.heap.detach c } := by
        refine destroy_eq h.counted fun d u e' _ hu hue => ?_
        obtain ⟨ev', c', he', hopen, hc', hd⟩ := h.timer hu hue
        refine ⟨c', ?_, hd⟩
        rintro rfl
        obtain rfl := h.apart he he' (hc.trans hc'.symm)
        obtain rfl := Option.some.inj (he.symm.trans he')
        rw [hclosing] at hopen
        contradiction
      have hr := h.counted.reheld_detach c
      have hgone : (s.heap.detach c).blockOf c = none := by rw [blockOf_detach, if_pos rfl]
      have hevents : ∀ {e' ev'}, Function.update s.events e none e' = some ev' →
          e' ≠ e ∧ s.events e' = some ev' := by
        intro e' ev' he'
        rw [Function.update_apply] at he'
        split_ifs at he' with heq
        exact ⟨heq, he'⟩
      have hother : ∀ {e' ev'}, s.events e' = some ev' → ev'.callback ≠ some c →
          Function.update s.events e none e' = some ev' := by
        intro e' ev' he' hne
        rw [Function.update_of_ne, he']
        rintro rfl
        obtain rfl := Option.some.inj (he.symm.trans he')
        exact hne hc
      have hne : ∀ {e' ev' c'}, e' ≠ e → s.events e' = some ev' → ev'.callback = some c' → c' ≠ c := by
        rintro e' ev' c' hne he' hc' rfl
        exact hne (h.apart he' he (hc'.trans hc.symm))
      simp only [hc, hdestroy]
      refine .inr ⟨setEvent { s with heap := s.heap.detach c } e none, rfl, ?_, ?_⟩
      · refine ⟨hr.counted, h.nodup, fun l hl => Nat.lt_of_lt_of_le (h.bound l hl) hr.slots, ?_, ?_, ?_, ?_, ?_, ?_⟩
        · intro l d hl
          have hlc : l ≠ c := by
            rintro rfl
            exact absurd (hgone.symm.trans hl) (by simp)
          refine (h.named ((hr.others hlc).symm.trans hl)).imp_right ?_
          rintro ⟨e', ev', he', hl'⟩
          refine ⟨e', ev', hother he' fun heq => hlc ?_, hl'⟩
          exact Option.some.inj (hl'.symm.trans heq)
        · intro e' ev' he'
          obtain ⟨hee, he'⟩ := hevents he'
          obtain ⟨hlt', hactive, hrunning, c', d, hc', hvar', hd, hlive⟩ := h.event he'
          have hd' : (s.heap.detach c).blockOf c' = some d := by rw [hr.others (hne hee he' hc'), hd]
          refine ⟨hlt', hactive, hrunning, c', d, hc', hvar', hd', fun hopen => ?_⟩
          obtain ⟨u, hu, hue⟩ := hlive hopen
          exact ⟨u, hr.tag hd' hu, hue⟩
        · intro e₁ e₂ ev₁ ev₂ h₁ h₂ hcallback
          exact h.apart (hevents h₁).2 (hevents h₂).2 hcallback
        · intro d u e' hu hue
          obtain ⟨ev', c', he', hopen, hc', hd⟩ := h.timer (hr.tags hu) hue
          have hcc : c' ≠ c := by
            rintro rfl
            obtain rfl := h.apart he he' (hc.trans hc'.symm)
            obtain rfl := Option.some.inj (he.symm.trans he')
            rw [hclosing] at hopen
            contradiction
          refine ⟨ev', c', hother he' ?_, hopen, hc', (hr.others hcc).trans hd⟩
          rw [hc']
          exact fun heq => hcc (Option.some.inj heq)
        · intro l hl
          change Frame.settle l ∈ s.frames at hl
          rw [hfs] at hl
          contradiction
        · intro e' he'
          change Frame.timer e' ∈ s.frames at he'
          rw [hfs] at he'
          contradiction
      · refine ⟨hr.next.ge, fun _ hu => ⟨_, hr.tags hu, fun _ => rfl⟩, Nat.le_refl _,
          fun _ hu hue => ⟨_, hr.tags hu, hue⟩, fun _ hover ev' he' => ?_⟩
        exact hover ev' (hevents he').2
    · exact .inl rfl
  · exact .inl rfl

/-! ## Runs -/

/-- A new block has no timer. -/
theorem Inv.attach (h : Inv s) {i : Nat} (hidle : s.Idle i) (hnone : s.heap.blockOf i = none) :
    Does s { s with heap := s.heap.attach i [] (unsettled none) } := by
  have hcounted := h.counted.attach (h.bound i hidle.1) hnone (unsettled none)
  have hblock : ∀ {l b}, s.heap.blockOf l = some b → (s.heap.attach i [] (unsettled none)).blockOf l = some b := by
    intro l b hb
    rw [blockOf_attach, if_neg, hb]
    rintro rfl
    rw [hnone] at hb
    contradiction
  have htag : ∀ {b t}, s.heap.tagOf b = some t → (s.heap.attach i [] (unsettled none)).tagOf b = some t := by
    intro b t ht
    rw [tagOf_attach, if_neg, ht]
    rintro rfl
    rw [h.counted.fresh (Nat.le_refl _)] at ht
    contradiction
  constructor
  · refine ⟨hcounted, h.nodup, h.bound, ?_, ?_, h.apart, ?_, ?_, h.firing⟩
    · intro l b hb
      rw [blockOf_attach] at hb
      split_ifs at hb with hl
      · exact .inl (hl ▸ hidle.1)
      · exact h.named hb
    · intro e ev he
      obtain ⟨hlt, hactive, hrunning, c, b, hc, hvar, hb, hlive⟩ := h.event he
      refine ⟨hlt, hactive, hrunning, c, b, hc, hvar, hblock hb, fun hclosing => ?_⟩
      obtain ⟨t, ht, hte⟩ := hlive hclosing
      exact ⟨t, htag ht, hte⟩
    · intro b t e ht hte
      rw [tagOf_attach] at ht
      split_ifs at ht with hb
      · rw [← Option.some.inj ht] at hte
        contradiction
      · obtain ⟨ev, c, he, hclosing, hc, hd⟩ := h.timer ht hte
        exact ⟨ev, c, he, hclosing, hc, hblock hd⟩
    · intro l hl
      obtain ⟨b, hb⟩ := h.settling hl
      exact ⟨b, hblock hb⟩
  · refine ⟨Nat.le_succ _, fun {b t} hb ht => ?_, Nat.le_refl _, fun {b t e} _ ht hte => ?_, fun _ hover => hover⟩
    · rw [tagOf_attach, if_neg (Nat.ne_of_lt hb)] at ht
      exact ⟨t, ht, fun _ => rfl⟩
    · rw [tagOf_attach] at ht
      split_ifs at ht
      · rw [← Option.some.inj ht] at hte
        contradiction
      · exact ⟨t, ht, hte⟩

theorem Inv.detach (h : Inv s) (hidle : s.Idle i) : Does s { s with heap := s.heap.detach i } := by
  refine h.does_reheld (h.counted.reheld_detach i) ?_
  rintro l rfl
  exact hidle

theorem Inv.dropVar (h : Inv s) (hnone : s.heap.blockOf i = none) : Does s { s with vars := s.vars.erase i } where
  inv := { h with
    nodup := h.nodup.erase i
    bound := fun l hl => h.bound l (List.mem_of_mem_erase hl)
    named := by
      intro l b hb
      refine (h.named hb).imp_left fun hl => (List.mem_erase_of_ne ?_).mpr hl
      rintro rfl
      rw [hnone] at hb
      contradiction
    event := by
      intro e ev he
      obtain ⟨hlt, hactive, hrunning, c, b, hc, hvar, hb, hlive⟩ := h.event he
      exact ⟨hlt, hactive, hrunning, c, b, hc, fun hl => hvar (List.mem_of_mem_erase hl), hb, hlive⟩ }
  follows := Follows.of_heap rfl id

/-- The timer of a block that `reset` makes happens to be null. -/
def Act.Cleared : Act → Prop
  | .reset _ junk => junk = none
  | _ => True

instance : ∀ a : Act, Decidable a.Cleared
  | .reset _ junk => inferInstanceAs (Decidable (junk = none))
  | .declare | .copyConstruct _ | .moveConstruct _ | .assign _ _ | .moveAssign _ _ | .destroy _ | .resolve _ _
  | .reject _ _ _ | .direct _ | .timeout _ _ | .returns _ | .onTimer _ _ | .onClose _ => isTrue trivial

/-- So it is with every `reset` of a run. -/
abbrev Cleared (s : State) (as : List Act) : Prop := Meets step (fun _ => Act.Cleared) s as

theorem Inv.unshare_idle (h : Inv s) (hidle : s.Idle i) :
    Timeouts.unshare s i = .ok { s with heap := s.heap.unshare i } := h.unshare (h.not_kept hidle.1)

/-- No act goes wrong but for what the program and libuv do not do. -/
theorem Inv.act (h : Inv s) {a : Act} (ha : a.Cleared) :
    Timeouts.act s a = .error .gone ∨ ∃ s', Timeouts.act s a = .ok s' ∧ Does s s' := by
  have hnew := h.newVar
  cases a with
  | declare =>
    obtain ⟨hdoes, hidle, hnone⟩ := hnew
    exact .inr ⟨_, rfl, hdoes.trans (hdoes.inv.attach hidle hnone)⟩
  | copyConstruct j =>
    rw [Timeouts.act]
    split_ifs
    · obtain ⟨hdoes, hidle, hnone⟩ := hnew
      obtain ⟨hshare, -⟩ := hdoes.inv.counted.reheld_share (hdoes.inv.bound _ hidle.1) hnone j
      refine .inr ⟨_, rfl, hdoes.trans (hdoes.inv.does_reheld hshare ?_)⟩
      rintro l rfl
      exact hidle
    · exact .inl rfl
  | moveConstruct j =>
    rw [Timeouts.act]
    split_ifs with hj
    · obtain ⟨hdoes, hidle, hnone⟩ := hnew
      have hne : s.heap.slots ≠ j := fun heq => Nat.lt_irrefl _ (heq ▸ h.bound j hj.1)
      have htransfer := hdoes.inv.counted.reheld_transfer (hdoes.inv.bound _ hidle.1) hnone hne
      refine .inr ⟨_, rfl, hdoes.trans (hdoes.inv.does_reheld htransfer ?_)⟩
      rintro l (rfl | rfl)
      · exact hidle
      · exact ⟨List.mem_cons_of_mem _ hj.1, hj.2⟩
    · exact .inl rfl
  | assign i j =>
    rw [Timeouts.act]
    split_ifs with hi
    · rw [copy, h.unshare_idle hi.1]
      refine .inr ⟨_, rfl, h.does_reheld (h.counted.reheld_copy (h.bound i hi.1.1) j) ?_⟩
      rintro l rfl
      exact hi.1
    · exact .inl rfl
  | moveAssign i j =>
    rw [Timeouts.act]
    split_ifs with hi
    · rw [move, h.unshare_idle hi.1]
      refine .inr ⟨_, rfl, h.does_reheld (h.counted.reheld_move (h.bound i hi.1.1) j) ?_⟩
      rintro l (rfl | rfl)
      · exact hi.1
      · exact hi.2
    · exact .inl rfl
  | destroy i =>
    rw [Timeouts.act]
    split_ifs with hi
    · rw [Timeouts.destroy, h.unshare_idle hi]
      change _ ∨ ∃ s', Except.ok { s with heap := (s.heap.unshare i).setBuf i none, vars := s.vars.erase i } = _ ∧ _
      rw [h.counted.setBuf_unshare]
      have hdoes := h.detach hi
      exact .inr ⟨_, rfl, hdoes.trans (hdoes.inv.dropVar (by rw [blockOf_detach, if_pos rfl]))⟩
    · exact .inl rfl
  | resolve i called =>
    rw [Timeouts.act]
    split_ifs
    · obtain ⟨s', heq, hdoes, -⟩ := h.settle i (fun t => { t with resolved := true }) (fun _ => rfl) called
      exact .inr ⟨s', heq, hdoes⟩
    · exact .inl rfl
  | reject i err called =>
    rw [Timeouts.act]
    split_ifs
    · obtain ⟨s', heq, hdoes, -⟩ := h.settle i (fun t => { t with err := err, rejected := true }) (fun _ => rfl) called
      exact .inr ⟨s', heq, hdoes⟩
    · exact .inl rfl
  | direct i =>
    rw [Timeouts.act]
    split_ifs
    · exact .inr ⟨_, rfl, h.direct i⟩
    · exact .inl rfl
  | reset i junk =>
    rw [Timeouts.act]
    split_ifs with hi
    · obtain rfl : junk = none := ha
      rw [Timeouts.reset, h.unshare_idle hi]
      have hdoes := h.detach hi
      have hattach := hdoes.inv.attach hi (by rw [blockOf_detach, if_pos rfl])
      refine .inr ⟨_, rfl, ?_⟩
      rw [← attach_setBuf _ _ none, h.counted.setBuf_unshare]
      exact hdoes.trans hattach
    · exact .inl rfl
  | timeout i ok =>
    rw [Timeouts.act]
    split_ifs
    · obtain ⟨s₁, harm, hdoes₁, -⟩ := h.armTimer i ok
      obtain ⟨hdoes, hidle, hnone⟩ := hdoes₁.inv.newVar
      obtain ⟨hshare, -⟩ := hdoes.inv.counted.reheld_share (hdoes.inv.bound _ hidle.1) hnone i
      rw [harm]
      refine .inr ⟨_, rfl, hdoes₁.trans (hdoes.trans (hdoes.inv.does_reheld hshare ?_))⟩
      rintro l rfl
      exact hidle
    · exact .inl rfl
  | returns last => exact h.returns last
  | onTimer e called =>
    rcases h.onTimer e called with hgone | ⟨s', b, t, heq, hdoes, -⟩
    · exact .inl hgone
    · exact .inr ⟨s', heq, hdoes⟩
  | onClose e => exact h.onClose e

theorem Inv.run {as : List Act} (h : Inv s) (hcleared : Cleared s as) (hrun : run step s as = some s') :
    Does s s' := by
  refine invariant_of_meets (I := Does s) (fun t a t' hdoes ha ht => ?_) hcleared hrun ⟨h, Follows.refl s⟩
  rcases hdoes.inv.act ha with hgone | ⟨u, hu, hdoes'⟩
  · rw [step, hgone] at ht
    contradiction
  · rw [step, hu] at ht
    obtain rfl := Option.some.inj ht
    exact hdoes.trans hdoes'

end

end Nodeoze.Event.Timeouts
