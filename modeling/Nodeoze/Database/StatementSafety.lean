import Nodeoze.Database.StatementRuns

/-!
# Statements are finalized when their last handle goes

Every operation keeps the invariant, and what the entries of `m_prepared_statements` hold stays, but for a
statement that a client finalizes.
-/

namespace Nodeoze.Database.Statements

open RefHeap Runs

/-- The entries of `m_prepared_statements` stay, and so do their statements outside `N`. -/
structure Stays (N : Nat → Prop) (s s' : State) : Prop where
  mem : ∀ {j}, j ∈ s.prepared → j ∈ s'.prepared
  owns : ∀ {j n}, j ∈ s.prepared → ¬N n → s.Owns j n → s'.Owns j n ∧ s'.stmts n = s.stmts n

section

variable {E : List Nat} {N : Nat → Prop} {s s' s'' : State} {i : Nat}

theorem Stays.refl (s : State) : Stays N s s := ⟨id, fun _ _ h => ⟨h, rfl⟩⟩

theorem Stays.trans (h : Stays N s s') (h' : Stays N s' s'') : Stays N s s'' where
  mem hj := h'.mem (h.mem hj)
  owns hj hn hown := by
    obtain ⟨hown', hstmts⟩ := h.owns hj hn hown
    obtain ⟨hown'', hstmts'⟩ := h'.owns (h.mem hj) hn hown'
    exact ⟨hown'', hstmts'.trans hstmts⟩

theorem Stays.of_keeps {P R : Nat → Prop} (h : Keeps P N R s s') (hP : ∀ j ∈ s.prepared, ¬P j)
    (hmem : ∀ j ∈ s.prepared, j ∈ s'.prepared) : Stays N s s' where
  mem hj := hmem _ hj
  owns hj hn hown := ⟨h.owns (hP _ hj) hn hown, h.stmts (hP _ hj) hn hown⟩

/-- The slots of the clients' handles are none of `m_prepared_statements`. -/
theorem Inv.not_prepared (h : Inv E s) {j : Nat} (hj : 0 < E.count j + s.vars.count j + s.slots.count j) :
    j ∉ s.prepared := by
  intro hmem
  have := List.count_pos_iff.mpr hmem
  have honce := h.once j
  unfold uses at honce
  omega

theorem Inv.prepared_lt (h : Inv E s) {j : Nat} (hj : j ∈ s.prepared) : j < s.heap.slots := by
  by_contra hge
  have := h.absent (Nat.le_of_not_lt hge)
  have := List.count_pos_iff.mpr hj
  unfold uses at *
  omega

theorem Inv.full_prepared (h : Inv E s) {j : Nat} (hj : j ∈ s.prepared) : ∃ b, s.heap.blockOf j = some b := by
  have := List.count_pos_iff.mpr hj
  exact h.full (by omega)

/-- Which connection there is and what the last error was is all the same to the handles. -/
theorem Inv.fields (h : Inv E s) (db : Option Nat) (nextDb : Nat) (err : Int32) :
    Inv E { s with db := db, nextDb := nextDb, err := err } :=
  ⟨h.safe, h.once, h.absent, h.named, h.full, h.apart, h.nested, h.entered, h.busy⟩

theorem Stays.fields (h : Stays N s s') (db : Option Nat) (nextDb : Nat) (err : Int32) :
    Stays N s { s' with db := db, nextDb := nextDb, err := err } :=
  ⟨h.mem, h.owns⟩

/-! ## The map is cleared -/

theorem destroyAll_handles (o : Safe s) (is : List Nat) :
    ∃ s', destroyAll s is = .ok s' ∧ Handles (· ∈ is) Nothing Nothing s s' ∧
      ∀ i ∈ is, s'.heap.blockOf i = none := by
  induction is generalizing s with
  | nil => exact ⟨s, rfl, ⟨o, Keeps.refl s, rfl, rfl⟩, fun _ hi => nomatch hi⟩
  | cons i is ih =>
    obtain ⟨s₁, hdestroy, hhandles, hnone⟩ := o.handles_destroy i
    obtain ⟨s', hall, hrest, hgone⟩ := ih hhandles.safe
    refine ⟨s', ?_, ?_, ?_⟩
    · rw [destroyAll, hdestroy]
      exact hall
    · exact (hhandles.mono fun j hj => hj ▸ List.mem_cons_self).trans
        (hrest.mono fun j hj => List.mem_cons_of_mem i hj)
    · intro j hj
      by_cases hmem : j ∈ is
      · exact hgone j hmem
      · rcases List.mem_cons.mp hj with rfl | hj
        · exact hrest.keeps.nowhere hmem hnone
        · exact absurd hj hmem

theorem resetAll_handles (o : Safe s) (is : List Nat) (hfull : ∀ i ∈ is, ∃ b, s.heap.blockOf i = some b) :
    ∃ s', resetAll s is = .ok s' ∧ Handles Nothing Nothing Nothing s s' := by
  induction is generalizing s with
  | nil => exact ⟨s, rfl, o, Keeps.refl s, rfl, rfl⟩
  | cons i is ih =>
    obtain ⟨b, hb⟩ := hfull i List.mem_cons_self
    rcases o.resetPrepared i with ⟨hnone, -⟩ | ⟨err, s₁, hreset, hhandles⟩
    · rw [hb] at hnone
      contradiction
    · obtain ⟨s', hall, hrest⟩ := ih hhandles.safe fun j hj => by
        rw [hhandles.keeps.blockOf o.counted id]
        exact hfull j (List.mem_cons_of_mem i hj)
      refine ⟨s', ?_, hhandles.trans hrest⟩
      rw [resetAll, hreset]
      exact hall

theorem Handles.setMap {P N R : Nat → Prop} (h : Handles P N R s s') (map : List (String × Nat)) :
    Handles P N R { s with map := map } { s' with map := map } where
  safe := h.safe
  keeps := ⟨h.keeps.nowhere, h.keeps.on, h.keeps.stmts⟩
  rest := by rw [h.rest]
  slots := h.slots

theorem Handles.setFrames {P N R : Nat → Prop} (h : Handles P N R s s') (frames : List Frame) :
    Handles P N R { s with frames := frames } { s' with frames := frames } where
  safe := h.safe
  keeps := ⟨h.keeps.nowhere, h.keeps.on, h.keeps.stmts⟩
  rest := by rw [h.rest]
  slots := h.slots

/-- `reset_all_prepared` does not fail; the handles of the map go. -/
theorem Inv.resetAllPrepared (h : Inv E s) :
    ∃ s', resetAllPrepared s = .ok s' ∧ Inv E s' ∧
      Handles (· ∈ s.slots) Nothing Nothing { s with map := [] } s' ∧ ∀ i ∈ s.slots, s'.heap.blockOf i = none := by
  obtain ⟨s₁, hdestroy, hhandles, hgone⟩ := destroyAll_handles h.safe s.slots
  have hcleared := h.clear.tells (hhandles.setMap []) fun j hj => by
    rw [List.count_append]
    have := mem_slots_iff.mp hj
    omega
  have hinv := hcleared.forgetAll hgone
  have hprepared : s₁.prepared = s.prepared := by rw [hhandles.rest]
  obtain ⟨s', hreset, hrest⟩ := resetAll_handles hinv.safe s₁.prepared fun i hi =>
    hinv.full_prepared hi
  refine ⟨s', ?_, hinv.tells hrest fun _ hj => hj.elim, (hhandles.setMap []).trans (hrest.mono fun _ hj => hj.elim),
    fun i hi => ?_⟩
  · rw [Statements.resetAllPrepared, hdestroy]
    exact hreset
  · exact hrest.keeps.nowhere id (hgone i hi)

theorem Inv.stays_resetAllPrepared (h : Inv E s)
    (hs : Handles (· ∈ s.slots) Nothing Nothing { s with map := [] } s') : Stays N s s' := by
  have hkeeps : Keeps (· ∈ s.slots) N Nothing s s' :=
    Keeps.mono ⟨hs.keeps.nowhere, hs.keeps.on, hs.keeps.stmts⟩ (fun _ => id) (fun _ hn => hn.elim) fun _ => id
  apply Stays.of_keeps hkeeps
  · intro j hj hslot
    have := mem_slots_iff.mp hslot
    exact h.not_prepared (by omega) hj
  · intro j hj
    rw [hs.rest]
    exact hj

/-! ## Statements that are compiled -/

/-- The handle on what `sqlite3_prepare_v2` answers. -/
theorem compile_comes (o : Safe s) (junk : Nat → Bool) (r : Compiled) (err : Int32) {code : Int32}
    {stmt : Option Nat} {s₁ : State} (hr : prepareV2 s r = (code, stmt, s₁)) :
    ∃ t s', constructResult junk { s₁ with err := err } code stmt = (s.heap.slots, s') ∧
      ComesAlone { s with err := err } s.heap.slots t s' ∧
      (code = 0 → construct junk { s₁ with err := err } stmt true 0 = (s.heap.slots, s')) ∧ t.stmt = stmt ∧
      ∀ n, stmt = some n → s'.stmts n = s.db := by
  have o' : Safe { s with err := err } := o
  rcases prepareV2_cases s r with ⟨c, hc, heq⟩ | heq | ⟨c, hdb, heq⟩
  · obtain ⟨rfl, rfl, rfl⟩ := Prod.mk.inj (heq.symm.trans hr) |>.imp_right Prod.mk.inj
    refine ⟨_, _, ?_, o'.construct junk false c, fun h => absurd h hc, rfl, fun _ hn => nomatch hn⟩
    rw [constructResult, if_neg hc]
    rfl
  · obtain ⟨rfl, rfl, rfl⟩ := Prod.mk.inj (heq.symm.trans hr) |>.imp_right Prod.mk.inj
    exact ⟨_, _, rfl, o'.construct junk true 0, fun _ => rfl, rfl, fun _ hn => nomatch hn⟩
  · obtain ⟨rfl, rfl, rfl⟩ := Prod.mk.inj (heq.symm.trans hr) |>.imp_right Prod.mk.inj
    refine ⟨_, _, rfl, o'.compiled c (junk s.heap.next), fun _ => rfl, rfl, ?_⟩
    rintro n hn
    obtain rfl := Option.some.inj hn
    rw [hdb]
    exact Function.update_self _ _ _

/-- What `transient_prepared_statement` does: the new handle's block is also in `m_prepared_statements`, if
the text was compiled. -/
structure Transient (N : Nat → Prop) (E : List Nat) (s : State) (r : Compiled) (s' : State) : Prop where
  inv : Inv (s.heap.slots :: E) s'
  alone : Alone s' s.heap.slots
  stays : Stays N s s'
  map : s'.map = s.map
  frames : s'.frames = s.frames
  queued : ∀ c, s.db = some c → r.code = 0 → r.blank = false →
    ∃ j ∈ s'.prepared, s'.Owns j s.nextStmt ∧ s'.stmts s.nextStmt = some c

theorem prepareV2_err {r : Compiled} {code : Int32} {stmt : Option Nat} {s₁ : State}
    (hr : prepareV2 s r = (code, stmt, s₁)) : { s₁ with err := s.err } = s₁ := by
  rcases prepareV2_cases s r with ⟨c, -, heq⟩ | heq | ⟨c, -, heq⟩
  · obtain ⟨-, -, rfl⟩ := Prod.mk.inj (heq.symm.trans hr) |>.imp_right Prod.mk.inj
    rfl
  · obtain ⟨-, -, rfl⟩ := Prod.mk.inj (heq.symm.trans hr) |>.imp_right Prod.mk.inj
    rfl
  · obtain ⟨-, -, rfl⟩ := Prod.mk.inj (heq.symm.trans hr) |>.imp_right Prod.mk.inj
    rfl

theorem prepareV2_compiled {c : Nat} {r : Compiled} (hdb : s.db = some c) (hcode : r.code = 0)
    (hblank : r.blank = false) : (prepareV2 s r).1 = 0 ∧ (prepareV2 s r).2.1 = some s.nextStmt := by
  rw [prepareV2, hdb]
  simp [hcode, hblank]

/-- A handle that comes is behind those of `m_prepared_statements`. -/
theorem Inv.stays_comes (h : Inv E s) {err : Int32} (hs : Comes { s with err := err } s.heap.slots s') :
    Stays N s s' := by
  have hkeeps : Keeps (· = s.heap.slots) N Nothing s s' :=
    Keeps.mono ⟨hs.keeps.nowhere, hs.keeps.on, hs.keeps.stmts⟩ (fun _ => id) (fun _ hn => hn.elim) fun _ => id
  apply Stays.of_keeps hkeeps
  · intro j hj heq
    exact Nat.lt_irrefl _ (heq ▸ h.prepared_lt hj)
  · intro j hj
    rw [hs.prepared]
    exact hj

theorem share_rest (i j : Nat) : share s i j = { s with heap := (share s i j).heap } := by
  unfold share
  split <;> rfl

/-- `push_back` of a copy of a handle on a new block. -/
theorem Inv.pushBack (h : Inv (i :: E) s) {b : Nat} (hb : s.heap.blockOf i = some b)
    (halone : ∀ j, s.heap.blockOf j = some b → j = i) {s' : State}
    (hs : s' = share { s with heap := s.heap.push } s.heap.slots i) :
    Inv (i :: E) { s' with prepared := s'.prepared ++ [s.heap.slots] } ∧
      Alone { s' with prepared := s'.prepared ++ [s.heap.slots] } i ∧ Stays N s s' ∧
      s'.heap.blockOf s.heap.slots = some b ∧ s'.heap.tagOf b = s.heap.tagOf b := by
  have hinv := h.comes h.safe.allocate
  have hlt : i < s.heap.slots := h.safe.counted.lt_slots hb
  obtain ⟨hshare, hblock, -⟩ := hinv.safe.share (i := s.heap.slots) (Nat.lt_succ_self _) (push_blockOf h.safe) i
  rw [← hs] at hshare hblock
  have hinv' : Inv (s.heap.slots :: i :: E) s' := hinv.tells hshare fun l hl => by
    rw [hl, List.count_cons_self]
    omega
  have hb' : s'.heap.blockOf s.heap.slots = some b := hblock.trans hb
  have hother : ∀ l, l ≠ s.heap.slots → s'.heap.blockOf l = s.heap.blockOf l :=
    fun l hl => hshare.keeps.blockOf hinv.safe.counted hl
  have hqueue := Inv.queue hinv' hb'
  have hprepared : s'.prepared = s.prepared := by rw [hshare.rest]
  refine ⟨hqueue, ?_, ?_, hb', ?_⟩
  · apply hqueue.alone (b := b)
    · exact (hother i (by omega)).trans hb
    · intro l hl
      by_cases hlj : l = s.heap.slots
      · right
        rw [hlj]
        simp
      · exact .inl (halone l ((hother l hlj).symm.trans hl))
  · have hkeeps : Keeps (· = s.heap.slots) N Nothing s s' :=
      Keeps.mono ⟨hshare.keeps.nowhere, hshare.keeps.on, hshare.keeps.stmts⟩ (fun _ => id)
        (fun _ hn => hn.elim) fun _ => id
    apply Stays.of_keeps hkeeps
    · intro j hj heq
      exact Nat.lt_irrefl _ (heq ▸ h.prepared_lt hj)
    · intro j hj
      rw [hprepared]
      exact hj
  · obtain ⟨k, hk, rfl⟩ := bufs_of_blockOf hb
    obtain ⟨B, hB, -⟩ := hinv.safe.counted.wf.live i k hk
    have heap : s'.heap = s.heap.push.share s.heap.slots k := by
      rw [hs, share]
      have hbufs : s.heap.push.bufs i = some k := hk
      simp only [hbufs]
    rw [heap, tagOf_share hB, tagOf_push]

theorem Inv.transientPreparedStatement (h : Inv E s) (junk : Nat → Bool) (r : Compiled) :
    ∃ s', transientPreparedStatement junk s r = (s.heap.slots, s') ∧ Transient N E s r s' := by
  rcases hr : prepareV2 s r with ⟨code, stmt, s₁⟩
  obtain ⟨t, s₂, hconstruct, hcomes, -, hstmt, hconn⟩ := compile_comes h.safe junk r code hr
  have hinv : Inv (s.heap.slots :: E) s₂ := (h.fields s.db s.nextDb code).comes hcomes.toComes
  have hstays : Stays N s s₂ := h.stays_comes hcomes.toComes
  obtain ⟨b, hb, ht, halone⟩ := hcomes.block
  by_cases hcode : code = 0
  · subst hcode
    obtain ⟨s₃, hs₃⟩ : ∃ s₃, s₃ = share { s₂ with heap := s₂.heap.push } s₂.heap.slots s.heap.slots := ⟨_, rfl⟩
    obtain ⟨hinv', halone', hstays', hb', ht'⟩ := hinv.pushBack (N := N) hb halone hs₃
    have hrest : s₃ = { s₂ with heap := s₃.heap } := by
      rw [hs₃]
      exact share_rest _ _
    refine ⟨_, ?_, hinv', halone', ?_, ?_, ?_, ?_⟩
    · simp only [Statements.transientPreparedStatement, hr, hconstruct, if_true, allocate, ← hs₃]
    · exact ⟨fun hj => List.mem_append_left _ (hstays'.mem (hstays.mem hj)),
        (hstays.trans hstays').owns⟩
    · change s₃.map = s.map
      rw [hrest]
      exact hcomes.map
    · change s₃.frames = s.frames
      rw [hrest]
      exact hcomes.frames
    · intro c hdb hrc hblank
      obtain ⟨-, hsome⟩ := prepareV2_compiled hdb hrc hblank
      rw [hr] at hsome
      obtain rfl : stmt = some s.nextStmt := hsome
      refine ⟨s₂.heap.slots, by simp, ⟨b, t, hb', ht'.trans ht, hstmt⟩, ?_⟩
      change s₃.stmts s.nextStmt = some c
      rw [hrest]
      exact (hconn _ rfl).trans hdb
  · refine ⟨s₂, ?_, hinv, hinv.alone hb fun j hj => .inl (halone j hj), hstays, hcomes.map, hcomes.frames, ?_⟩
    · simp only [Statements.transientPreparedStatement, hr, hconstruct, if_neg hcode]
    · intro c hdb hrc hblank
      obtain ⟨hzero, -⟩ := prepareV2_compiled hdb hrc hblank
      rw [hr] at hzero
      exact absurd hzero hcode

theorem Inv.select (h : Inv E s) (junk : Nat → Bool) (r : Compiled) :
    Inv E (select junk s r) ∧ Stays N s (select junk s r) := by
  rcases hr : prepareV2 s r with ⟨code, stmt, s₁⟩
  obtain ⟨t, s₂, hconstruct, hcomes, -⟩ := compile_comes h.safe junk r s.err hr
  rw [prepareV2_err hr] at hconstruct
  have hselect : Statements.select junk s r = Statements.newVar s₂ s.heap.slots := by
    simp only [Statements.select, hr, hconstruct, Statements.newVar]
  rw [hselect]
  have hinv : Inv (s.heap.slots :: E) s₂ := h.comes hcomes.toComes
  have hstays : Stays N s s₂ := h.stays_comes hcomes.toComes
  exact ⟨hinv.newVar, hstays.mem, hstays.owns⟩

theorem Inv.prepare (h : Inv E s) (junk : Nat → Bool) (r : Compiled) :
    Inv E (prepare junk s r) ∧ Stays N s (prepare junk s r) ∧
      ∀ c, s.db = some c → r.code = 0 → r.blank = false →
        ∃ j ∈ (prepare junk s r).prepared, (prepare junk s r).Owns j s.nextStmt ∧
          (prepare junk s r).stmts s.nextStmt = some c := by
  obtain ⟨s', hprepare, htransient⟩ := h.transientPreparedStatement (N := N) junk r
  have heq : Statements.prepare junk s r = Statements.newVar s' s.heap.slots := by
    rw [Statements.prepare, hprepare, Statements.newVar]
  rw [heq]
  exact ⟨htransient.inv.newVar, ⟨htransient.stays.mem, htransient.stays.owns⟩, htransient.queued⟩

/-- `tracked_prepared_statement`: there is a new entry, or nothing has changed. -/
theorem Inv.trackedPreparedStatement (h : Inv E s) (junk : Nat → Bool) (str : String) (r : Compiled) :
    trackedPreparedStatement junk s str r = (none, s) ∨
      ∃ s', trackedPreparedStatement junk s str r = (some s.heap.slots, s') ∧ Inv E s' ∧ Stays N s s' ∧
        s.heap.slots ∈ s'.slots := by
  rcases hr : prepareV2 s r with ⟨code, stmt, s₁⟩
  by_cases hcode : code = 0
  · right
    obtain ⟨t, s₂, -, hcomes, hconstruct, -⟩ := compile_comes h.safe junk r s.err hr
    rw [prepareV2_err hr] at hconstruct
    have hinv : Inv (s.heap.slots :: E) s₂ := h.comes hcomes.toComes
    have hstays : Stays N s s₂ := h.stays_comes hcomes.toComes
    obtain ⟨b, hb, -, halone⟩ := hcomes.block
    have hentry : s.heap.slots ∉ entries s₂.frames := by
      rw [hcomes.frames]
      exact fun hmem => Nat.lt_irrefl _ (h.entered hmem)
    refine ⟨_, ?_, hinv.track (hinv.alone hb fun j hj => .inl (halone j hj)) hentry str,
      ⟨hstays.mem, hstays.owns⟩, ?_⟩
    · simp only [Statements.trackedPreparedStatement, hr, if_pos hcode, hconstruct hcode]
    · exact List.mem_cons_self
  · left
    rcases prepareV2_cases s r with ⟨c, -, heq⟩ | heq | ⟨c, -, heq⟩
    · rw [hr] at heq
      obtain ⟨-, -, rfl⟩ := Prod.mk.inj heq |>.imp_right Prod.mk.inj
      simp only [Statements.trackedPreparedStatement, hr, if_neg hcode]
    · rw [hr] at heq
      exact absurd (Prod.mk.inj heq).1 hcode
    · rw [hr] at heq
      exact absurd (Prod.mk.inj heq).1 hcode

theorem mem_slots_of_lookup {map : List (String × Nat)} {str : String} (h : map.lookup str = some i) :
    i ∈ map.map Prod.snd := by
  induction map with
  | nil => contradiction
  | cons m map ih =>
    obtain ⟨k, j⟩ := m
    rw [List.lookup_cons] at h
    split at h
    · obtain rfl := Option.some.inj h
      exact List.mem_cons_self
    · exact List.mem_cons_of_mem j (ih h)

theorem Stays.frames (h : Stays N s s') (frames : List Frame) : Stays N s { s' with frames := frames } :=
  ⟨h.mem, h.owns⟩

/-- A function is called with the entry, or with a statement of its own. -/
theorem Inv.callWith (h : Inv E s) (junk : Nat → Bool) (r : Compiled) (hi : i ∈ s.slots) {t : State}
    (ht : t = if reentrant s i then
        { (Statements.transientPreparedStatement junk s r).2 with
          frames := .transient (Statements.transientPreparedStatement junk s r).1 ::
            (Statements.transientPreparedStatement junk s r).2.frames }
      else { Statements.setReentrant s i true with frames := .tracked i :: (Statements.setReentrant s i true).frames }) :
    Inv E t ∧ Stays N s t := by
  cases hfree : reentrant s i with
  | true =>
    obtain ⟨s', hprepare, htransient⟩ := h.transientPreparedStatement (N := N) junk r
    rw [hfree, if_pos rfl, hprepare] at ht
    rw [ht]
    exact ⟨htransient.inv.transient htransient.alone, htransient.stays.frames _⟩
  | false =>
    rw [hfree, if_neg Bool.false_ne_true] at ht
    have hpos := mem_slots_iff.mp hi
    obtain ⟨b, hb⟩ := h.full (i := i) (by omega)
    obtain ⟨hhandles, -⟩ := h.setReentrant hb true
    have hframes : (Statements.setReentrant s i true).frames = s.frames := by rw [hhandles.rest]
    rw [ht, hframes]
    refine ⟨h.enter hi hfree, Stays.frames ?_ _⟩
    have hkeeps : Keeps Nothing N (· = b) s (Statements.setReentrant s i true) :=
      hhandles.keeps.mono (fun _ => id) (fun _ hn => hn.elim) fun _ => id
    apply Stays.of_keeps hkeeps
    · exact fun _ _ => id
    · intro j hj
      rw [hhandles.rest]
      exact hj

theorem Inv.call (h : Inv E s) (junk : Nat → Bool) (str : String) (r r' : Compiled) :
    Inv E (call junk s str r r') ∧ Stays N s (call junk s str r r') := by
  cases hfind : s.map.lookup str with
  | some i =>
    apply h.callWith junk r' (mem_slots_of_lookup hfind)
    simp only [Statements.call, hfind]
  | none =>
    rcases h.trackedPreparedStatement (N := N) junk str r with htracked | ⟨s', htracked, hinv, hstays, hmem⟩
    · have hcall : Statements.call junk s str r r' = s := by
        simp only [Statements.call, hfind, htracked]
      rw [hcall]
      exact ⟨h, Stays.refl s⟩
    · obtain ⟨hcall, hrest⟩ := hinv.callWith (N := N) junk r' hmem (t := Statements.call junk s str r r') (by
        simp only [Statements.call, hfind, htracked])
      exact ⟨hcall, hstays.trans hrest⟩

/-! ## Every operation -/

/-- The handle whose block a call needs. -/
def Act.target : Act → Option Nat
  | .finalize i => some i
  | .step i _ => some i
  | .exec i _ => some i
  | .reset i => some i
  | .lastError i => some i
  | _ => none

/-- The statements that an operation finalizes on demand. -/
def Finalizes (s : State) (a : Act) (n : Nat) : Prop := ∃ i, a = .finalize i ∧ s.Owns i n

/-- The operation keeps the invariant; or it is not one of the program, or it is a call on a client's handle
that has no block. -/
def Fine (s : State) (a : Act) : Except Fault State → Prop
  | .ok s' => Inv [] s' ∧ Stays (Finalizes s a) s s'
  | .error .gone => True
  | .error .noConnection => s.db = none
  | .error .null => ∃ i ∈ s.vars, a.target = some i ∧ s.heap.blockOf i = none
  | .error _ => False

theorem Inv.full_visible (h : Inv E s) (hi : s.Visible i) (hnone : s.heap.blockOf i = none) : i ∈ s.vars := by
  rcases hi with hi | hi
  · exact hi
  · exfalso
    obtain ⟨f, hf, hhanded⟩ := List.mem_filterMap.mp hi
    have hpos : 0 < s.slots.count i + s.prepared.count i + (locals s.frames).count i := by
      cases f with
      | tracked j =>
        simp only [State.handed] at hhanded
        split_ifs at hhanded with hj
        obtain rfl := Option.some.inj hhanded
        have := mem_slots_iff.mp hj
        omega
      | transient j =>
        obtain rfl := Option.some.inj hhanded
        have : j ∈ locals s.frames := List.mem_filterMap.mpr ⟨_, hf, rfl⟩
        have := List.count_pos_iff.mpr this
        omega
    obtain ⟨b, hb⟩ := h.full hpos
    rw [hnone] at hb
    contradiction

/-- An operation on the clients' handles. -/
theorem Inv.fine_handles {a : Act} (h : Inv [] s) {P : Nat → Prop} (hs : Handles P (Finalizes s a) Nothing s s')
    (hP : ∀ j, P j → j ∈ s.vars) : Fine s a (.ok s') := by
  have hpos : ∀ j, P j → 0 < ([] : List Nat).count j + s.vars.count j := by
    intro j hj
    have := List.count_pos_iff.mpr (hP j hj)
    omega
  refine ⟨h.tells hs hpos, Stays.of_keeps hs.keeps (fun j hj hp => ?_) fun j hj => ?_⟩
  · have := hpos j hp
    exact h.not_prepared (by omega) hj
  · rw [hs.rest]
    exact hj

theorem Handles.finalizes {P N R : Nat → Prop} (h : Handles P N R s s') (N' : Nat → Prop) (hN : ∀ n, N n → N' n) :
    Handles P N' R s s' :=
  { h with keeps := h.keeps.mono (fun _ => id) hN fun _ => id }

theorem Handles.reentrants {P N R R' : Nat → Prop} (h : Handles P N R s s') (hR : ∀ b, R b → R' b) :
    Handles P N R' s s' :=
  { h with keeps := h.keeps.mono (fun _ => id) (fun _ => id) hR }

/-- A call that only tells something. -/
theorem Inv.fine_tells {α : Type} {a : Act} (h : Inv [] s) (hi : s.Visible i) (htarget : a.target = some i)
    {r : Except Fault (α × State)} (hr : Tells s i r) : Fine s a (Prod.snd <$> r) := by
  rcases hr with ⟨hnone, rfl⟩ | ⟨x, s', rfl, hhandles⟩
  · exact ⟨i, h.full_visible hi hnone, htarget, hnone⟩
  · exact h.fine_handles (hhandles.finalizes _ fun _ hn => hn.elim) fun _ hj => hj.elim

/-- An operation on a new slot and the clients' handles. -/
theorem Inv.fine_new {a : Act} (h : Inv [] s) {P : Nat → Prop}
    (hs : Handles P Nothing Nothing { s with heap := s.heap.push } s') (hP : ∀ j, P j → j = s.heap.slots ∨ j ∈ s.vars) :
    Fine s a (.ok (Statements.newVar s' s.heap.slots)) := by
  have hinv := h.comes h.safe.allocate
  have hinv' : Inv [s.heap.slots] s' := hinv.tells hs fun j hj => by
    rcases hP j hj with rfl | hj
    · rw [List.count_cons_self]
      omega
    · have : 0 < s.vars.count j := List.count_pos_iff.mpr hj
      change 0 < _ + s.vars.count j
      omega
  refine ⟨hinv'.newVar, ?_⟩
  have hkeeps : Keeps P (Finalizes s a) Nothing s s' :=
    Keeps.mono ⟨hs.keeps.nowhere, hs.keeps.on, hs.keeps.stmts⟩ (fun _ => id) (fun _ hn => hn.elim) fun _ => id
  have hstays : Stays (Finalizes s a) s s' := by
    apply Stays.of_keeps hkeeps
    · intro j hj hp
      rcases hP j hp with rfl | hp
      · exact Nat.lt_irrefl _ (h.prepared_lt hj)
      · have := List.count_pos_iff.mpr hp
        exact h.not_prepared (by omega) hj
    · intro j hj
      rw [hs.rest]
      exact hj
  exact ⟨hstays.mem, hstays.owns⟩

theorem Inv.fine_close (h : Inv [] s) : ∃ err s', close s = .ok (err, s') ∧ Inv [] s' ∧ Stays N s s' := by
  obtain ⟨s₁, hreset, hinv, hhandles, -⟩ := (h.fields s.db s.nextDb 0).resetAllPrepared
  have hstays : Stays N s s₁ := by
    obtain ⟨hmem, howns⟩ := (h.fields s.db s.nextDb 0).stays_resetAllPrepared (N := N) hhandles
    exact ⟨hmem, howns⟩
  have hreset' : Statements.resetAllPrepared { s with err := 0 } = .ok s₁ := hreset
  rw [close, hreset']
  simp only [bind, Except.bind]
  split
  · exact ⟨_, _, rfl, hinv, hstays⟩
  · split_ifs
    · exact ⟨_, _, rfl, hinv.fields _ _ _, hstays.fields none s₁.nextDb s₁.err⟩
    · exact ⟨_, _, rfl, hinv.fields _ _ _, hstays.fields s₁.db s₁.nextDb _⟩

theorem sqlite3Open_fields (r : Opened) (err : Int32) :
    ∃ db nextDb, { sqlite3Open s r with err := err } = { s with db := db, nextDb := nextDb, err := err } := by
  unfold sqlite3Open
  split_ifs
  · exact ⟨_, _, rfl⟩
  · exact ⟨_, _, rfl⟩

theorem Inv.fine_openDatabase (h : Inv [] s) (name : String) (r : Opened) (pragma : Int32) :
    ∃ err s', openDatabase s name r pragma = .ok (err, s') ∧ Inv [] s' ∧ Stays N s s' := by
  by_cases hname : name = ""
  · exact ⟨s.err, s, by rw [openDatabase, if_pos hname], h, Stays.refl s⟩
  · obtain ⟨s₁, hreset, hinv, hhandles, -⟩ := h.resetAllPrepared
    have hstays : Stays N s s₁ := h.stays_resetAllPrepared hhandles
    let err := if r.code = 0 then pragma else r.code
    obtain ⟨db, nextDb, heq⟩ := sqlite3Open_fields (s := s₁) r err
    refine ⟨err, _, ?_, hinv.fields db nextDb err, hstays.fields db nextDb err⟩
    rw [← heq, openDatabase, if_neg hname, hreset]
    rfl

theorem Inv.fine_restore (h : Inv [] s) (named : Bool) (r : Opened) (hook : Option Int32) :
    (s.db = none ∧ restore s named r hook = .error .noConnection) ∨
      ∃ err s', restore s named r hook = .ok (err, s') ∧ Inv [] s' ∧ Stays N s s' := by
  cases hdb : s.db with
  | none => exact .inl ⟨rfl, by rw [restore, hdb]⟩
  | some c =>
    right
    cases named with
    | false => exact ⟨EINVAL, s, by rw [restore, hdb]; rfl, h, Stays.refl s⟩
    | true =>
      by_cases hclosed : sqlite3Close s c = 0
      · obtain ⟨db, nextDb, heq⟩ := sqlite3Open_fields (s := s) r s.err
        have herr : { sqlite3Open s r with err := s.err } = sqlite3Open s r := by
          unfold sqlite3Open
          split_ifs <;> rfl
        refine ⟨if r.code ≠ 0 then r.code else hook.getD 0, _, ?_, h.fields db nextDb s.err,
          (Stays.refl s).fields db nextDb s.err⟩
        rw [← heq, herr, restore, hdb]
        simp only [if_true, hclosed, ne_eq, not_true_eq_false, if_false]
        split_ifs <;> rfl
      · refine ⟨sqlite3Close s c, s, ?_, h, Stays.refl s⟩
        rw [restore, hdb]
        simp only [if_true, ne_eq, hclosed, not_false_eq_true]

/-- A call of a function ends. -/
theorem Inv.fine_endTransient {a : Act} (h : Inv [] s) {frames : List Frame}
    (hframes : s.frames = .transient i :: frames) :
    Fine s a (Statements.destroy { s with frames := frames } i) := by
  have hinv := h.endTransient hframes
  obtain ⟨s', hdestroy, hhandles, hnone⟩ := hinv.safe.handles_destroy i
  rw [hdestroy]
  have hinv' := hinv.tells hhandles fun j hj => by
    rw [hj, List.count_cons_self]
    omega
  refine ⟨hinv'.forget hnone, ?_⟩
  have hkeeps : Keeps (· = i) (Finalizes s a) Nothing s s' :=
    Keeps.mono ⟨hhandles.keeps.nowhere, hhandles.keeps.on, hhandles.keeps.stmts⟩ (fun _ => id)
      (fun _ hn => hn.elim) fun _ => id
  apply Stays.of_keeps hkeeps
  · rintro j hj rfl
    exact hinv.not_prepared (by rw [List.count_cons_self]; omega) hj
  · intro j hj
    rw [hhandles.rest]
    exact hj

theorem Inv.fine_endTracked {a : Act} (h : Inv [] s) {frames : List Frame}
    (hframes : s.frames = .tracked i :: frames) : Fine s a (.ok { s with frames := frames }) :=
  ⟨h.endTracked hframes, (Stays.refl s).frames frames⟩

theorem Inv.fine_throws {a : Act} (h : Inv [] s) : Fine s a (throws s) := by
  unfold throws
  split
  · trivial
  · rename_i hframes
    exact h.fine_endTracked hframes
  · rename_i hframes
    exact h.fine_endTransient hframes

theorem Inv.fine_returns {a : Act} (h : Inv [] s) : Fine s a (returns s) := by
  unfold returns
  split
  · trivial
  · rename_i i frames hframes
    split_ifs with hi
    · have hpos := mem_slots_iff.mp hi
      obtain ⟨b, hb⟩ := h.full (i := i) (by omega)
      obtain ⟨hset, -⟩ := h.setReentrant hb false
      rcases hset.safe.resetPrepared i with ⟨hnone, -⟩ | ⟨err, s', hreset, hhandles⟩
      · rw [hset.keeps.blockOf h.safe.counted id, hb] at hnone
        contradiction
      · rw [hreset]
        have hboth : Handles Nothing Nothing (· = b) s s' := hset.trans (hhandles.reentrants fun _ => False.elim)
        have hunused : i ∉ entries frames := by
          have hnested := h.nested
          rw [hframes] at hnested
          exact (List.nodup_cons.mp hnested).1
        have hinv := (h.endTracked hframes).handles (hboth.setFrames frames) (fun _ hj => hj.elim) (by
          rintro j hj hslot c hc rfl
          have hslot' : 0 < s.slots.count j := hslot
          exact hunused (h.apart (by omega) (by omega) hc hb ▸ hj))
        refine ⟨hinv, Stays.frames ?_ _⟩
        have hkeeps : Keeps Nothing (Finalizes s a) (· = b) s s' :=
          hboth.keeps.mono (fun _ => id) (fun _ hn => hn.elim) fun _ => id
        apply Stays.of_keeps hkeeps
        · exact fun _ _ => id
        · intro j hj
          rw [hboth.rest]
          exact hj
    · trivial
  · rename_i hframes
    exact h.fine_endTransient hframes

theorem fine_gone {a : Act} : Fine s a (.error .gone) := trivial

/-- What an operation does with a state that meets the invariant. -/
theorem Inv.fine_act (h : Inv [] s) (junk : Nat → Bool) (a : Act) : Fine s a (act junk s a) := by
  have hlt : ∀ {j}, j ∈ s.vars → j < s.heap.slots := by
    intro j hj
    by_contra hge
    have := h.absent (Nat.le_of_not_lt hge)
    have := List.count_pos_iff.mpr hj
    unfold uses at *
    omega
  have hpush := h.comes h.safe.allocate
  cases a with
  | declare =>
    have hcomes := (h.safe.construct junk true 0).toComes
    have hstays : Stays (Finalizes s .declare) s (construct junk s none true 0).2 :=
      @Inv.stays_comes _ _ _ _ h s.err hcomes
    exact ⟨(h.comes hcomes).newVar, hstays.mem, hstays.owns⟩
  | copyConstruct j =>
    rw [act]
    split_ifs
    · obtain ⟨hshare, -⟩ := hpush.safe.share (i := s.heap.slots) (Nat.lt_succ_self _) (push_blockOf h.safe) j
      exact h.fine_new hshare fun l hl => .inl hl
    · exact fine_gone
  | moveConstruct j =>
    rw [act]
    split_ifs with hj
    · have htransfer := hpush.safe.transfer (i := s.heap.slots) (Nat.lt_succ_self _) (push_blockOf h.safe)
        (Nat.ne_of_gt (hlt hj))
      refine h.fine_new htransfer fun l hl => ?_
      rcases hl with hl | rfl
      · exact .inl hl
      · exact .inr hj
    · exact fine_gone
  | assign i j =>
    rw [act]
    split_ifs with hij
    · obtain ⟨s', hcopy, hhandles⟩ := h.safe.copy (hlt hij.1) j
      rw [hcopy]
      exact h.fine_handles (hhandles.finalizes _ fun _ hn => hn.elim) fun l hl => hl ▸ hij.1
    · exact fine_gone
  | moveAssign i j =>
    rw [act]
    split_ifs with hij
    · obtain ⟨s', hmove, hhandles⟩ := h.safe.move (hlt hij.1) j
      rw [hmove]
      refine h.fine_handles (hhandles.finalizes _ fun _ hn => hn.elim) fun l hl => ?_
      rcases hl with rfl | rfl
      · exact hij.1
      · exact hij.2
    · exact fine_gone
  | destroy i =>
    rw [act]
    split_ifs with hi
    · obtain ⟨s', hdestroy, hhandles, hnone⟩ := h.safe.handles_destroy i
      have hfine : Fine s (.destroy i) (.ok s') :=
        h.fine_handles (hhandles.finalizes _ fun _ hn => hn.elim) fun l hl => hl ▸ hi
      have hvars : s'.vars = s.vars := by rw [hhandles.rest]
      rw [hdestroy]
      exact ⟨hfine.1.eraseVar (hvars ▸ hi) hnone, hfine.2.mem, hfine.2.owns⟩
    · exact fine_gone
  | finalize i =>
    rw [act]
    split_ifs with hi
    · rcases h.safe.finalize i with ⟨hnone, hfinalize⟩ | ⟨s', hfinalize, hhandles⟩
      · rw [hfinalize]
        exact ⟨i, h.full_visible hi hnone, rfl, hnone⟩
      · rw [hfinalize]
        exact h.fine_handles (hhandles.finalizes _ fun n hn => ⟨i, rfl, hn⟩) fun _ hl => hl.elim
    · exact fine_gone
  | step i code =>
    rw [act]
    split_ifs with hi
    · exact h.fine_tells hi rfl (h.safe.stepStatement i code)
    · exact fine_gone
  | exec i codes =>
    rw [act]
    split_ifs with hi
    · exact h.fine_tells hi rfl (h.safe.execPrepared i codes)
    · exact fine_gone
  | reset i =>
    rw [act]
    split_ifs with hi
    · exact h.fine_tells hi rfl (h.safe.resetPrepared i)
    · exact fine_gone
  | lastError i =>
    rw [act]
    split_ifs with hi
    · exact h.fine_tells hi rfl (h.safe.lastError i)
    · exact fine_gone
  | select r => exact h.select junk r
  | prepare r =>
    obtain ⟨hinv, hstays, -⟩ := h.prepare (N := Finalizes s (.prepare r)) junk r
    exact ⟨hinv, hstays⟩
  | call str r r' => exact h.call junk str r r'
  | returns => exact h.fine_returns
  | throws => exact h.fine_throws
  | openDatabase name r pragma =>
    obtain ⟨err, s', hopen, hfine⟩ := h.fine_openDatabase name r pragma
    rw [act, hopen]
    exact hfine
  | close =>
    obtain ⟨err, s', hclose, hfine⟩ := h.fine_close
    rw [act, hclose]
    exact hfine
  | restore named r hook =>
    rcases h.fine_restore named r hook with ⟨hdb, hrestore⟩ | ⟨err, s', hrestore, hfine⟩
    · rw [act, hrestore]
      exact hdb
    · rw [act, hrestore]
      exact hfine

end

/-! ## Runs -/

section

variable {junk : Nat → Bool} {s s' : State} {a : Act} {as : List Act}

theorem Inv.fine_step (h : Inv [] s) (hstep : step junk s a = some s') :
    Inv [] s' ∧ Stays (Finalizes s a) s s' := by
  have hfine := h.fine_act junk a
  rw [step] at hstep
  cases hact : act junk s a with
  | error f =>
    rw [hact] at hstep
    contradiction
  | ok t =>
    rw [hact] at hstep hfine
    obtain rfl : t = s' := Option.some.inj hstep
    exact hfine

theorem inv_run (h : run (step junk) create as = some s) : Inv [] s :=
  invariant (fun _ _ _ hs hstep => (hs.fine_step hstep).1) h inv_create

/-- The handles of the clients and of the database. -/
def State.objects (s : State) : List Nat := s.vars ++ s.slots ++ s.prepared ++ locals s.frames

/-- A statement of the map and a copy of it, one handle assigned to itself and one moved from. -/
def handlesMove : List Act :=
  [.openDatabase "db" ⟨0, true⟩ 0, .call "SELECT 1" ⟨0, false⟩ ⟨0, false⟩, .copyConstruct 0, .step 1 SQLITE_ROW,
    .returns, .prepare ⟨0, false⟩, .assign 2 2, .moveConstruct 2, .declare, .assign 5 5, .close]

theorem count_handed (frames : List Frame) (i : Nat) : (frames.filterMap s.handed).count i
    = (if i ∈ s.slots then (entries frames).count i else 0) + (locals frames).count i := by
  induction frames with
  | nil => simp [entries, locals]
  | cons f frames ih =>
    cases f with
    | tracked j =>
      have hlocals : locals (.tracked j :: frames) = locals frames := rfl
      have hentries : entries (.tracked j :: frames) = j :: entries frames := rfl
      rw [hlocals, hentries, List.filterMap_cons, State.handed]
      split_ifs with hj hi hi
      · rw [List.count_cons, List.count_cons, ih, if_pos hi]
        omega
      · have hne : j ≠ i := fun heq => hi (heq ▸ hj)
        rw [List.count_cons_of_ne hne, ih, if_neg hi]
      · have hne : j ≠ i := fun heq => hj (heq ▸ hi)
        rw [List.count_cons_of_ne hne, ih, if_pos hi]
      · rw [ih, if_neg hi]
    | transient j =>
      have hlocals : locals (.transient j :: frames) = j :: locals frames := rfl
      have hentries : entries (.transient j :: frames) = entries frames := rfl
      have hhanded : (Frame.transient j :: frames).filterMap s.handed = j :: frames.filterMap s.handed := rfl
      rw [hlocals, hentries, hhanded, List.count_cons, List.count_cons, ih]
      omega

/-- The same text three times, the second from the first function and the third from the second. -/
def nestedCalls : List Act :=
  [.openDatabase "db" ⟨0, true⟩ 0, .call "SELECT 1" ⟨0, false⟩ ⟨0, false⟩,
    .call "SELECT 1" ⟨0, false⟩ ⟨0, false⟩, .call "SELECT 1" ⟨0, false⟩ ⟨0, false⟩]

example : (run (step fun _ => false) create nestedCalls).map State.frames
    = some [.transient 3, .transient 1, .tracked 0] := by decide

end

end Nodeoze.Database.Statements
