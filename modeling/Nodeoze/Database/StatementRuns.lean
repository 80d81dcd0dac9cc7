import Nodeoze.Database.StatementHeap

/-!
# What holds the statements

The objects of a run are the clients' handles, the entries of `m_prepared_statement_map`, those of
`m_prepared_statements`, and the statements that a call of `prepare` keeps itself.  No two of them are in
one slot, and the database's own are never without a block.  The entries of the map have blocks of their
own, which are reentrant while a function that was called with them runs.

From this it follows that sqlite is never given a statement that is finalized, and that no statement is
left over when its last handle has gone.
-/

namespace Nodeoze.Database.Statements

open RefHeap Runs

def locals (frames : List Frame) : List Nat :=
  frames.filterMap fun
    | .transient i => some i
    | .tracked _ => none

def entries (frames : List Frame) : List Nat :=
  frames.filterMap fun
    | .tracked i => some i
    | .transient _ => none

/-- How many objects are in a slot; `E` are those that have no owner yet. -/
def uses (E : List Nat) (s : State) (i : Nat) : Nat :=
  E.count i + s.vars.count i + s.slots.count i + s.prepared.count i + (locals s.frames).count i

structure Inv (E : List Nat) (s : State) : Prop where
  safe : Safe s
  once : ∀ i, uses E s i ≤ 1
  absent : ∀ {i}, s.heap.slots ≤ i → uses E s i = 0
  named : ∀ {i b}, s.heap.blockOf i = some b → 0 < uses E s i
  full : ∀ {i}, 0 < s.slots.count i + s.prepared.count i + (locals s.frames).count i →
    ∃ b, s.heap.blockOf i = some b
  apart : ∀ {i j b}, 0 < s.slots.count i + (locals s.frames).count i →
    0 < s.slots.count j + (locals s.frames).count j → s.heap.blockOf i = some b → s.heap.blockOf j = some b → i = j
  nested : (entries s.frames).Nodup
  entered : ∀ {i}, i ∈ entries s.frames → i < s.heap.slots
  busy : ∀ {i}, i ∈ entries s.frames → 0 < s.slots.count i → reentrant s i = true

section

variable {E : List Nat} {s s' : State} {i : Nat}

theorem reentrant_iff {i : Nat} : reentrant s i = true ↔
    ∃ b t, s.heap.blockOf i = some b ∧ s.heap.tagOf b = some t ∧ t.reentrant = true := by
  unfold reentrant
  cases hb : s.heap.blockOf i with
  | none => simp
  | some b =>
    cases ht : s.heap.tagOf b with
    | none => simp [ht]
    | some t => simp [ht]

theorem inv_create : Inv [] create where
  safe :=
    { counted := Counted.empty
      owner := fun h => nomatch h
      unique := fun h => nomatch h
      owned := fun h => absurd rfl h
      fresh := fun _ => rfl }
  once _ := Nat.zero_le _
  absent _ := rfl
  named h := nomatch h
  full h := absurd h (Nat.lt_irrefl 0)
  apart h := absurd h (Nat.lt_irrefl 0)
  nested := List.nodup_nil
  entered h := nomatch h
  busy h := nomatch h

/-! ## What changes handles and blocks -/

/-- The handles that may change are the clients' and those without an owner, and what the entries in use say
about reentrance stays. -/
theorem Inv.handles (h : Inv E s) {P N R : Nat → Prop} (hs : Handles P N R s s')
    (hP : ∀ j, P j → 0 < E.count j + s.vars.count j)
    (hR : ∀ j ∈ entries s.frames, 0 < s.slots.count j → ∀ b, s.heap.blockOf j = some b → ¬R b) : Inv E s' := by
  have hvars : s'.vars = s.vars := by rw [hs.rest]
  have hslots : s'.slots = s.slots := by rw [hs.rest]; rfl
  have hprepared : s'.prepared = s.prepared := by rw [hs.rest]
  have hframes : s'.frames = s.frames := by rw [hs.rest]
  have huses : ∀ j, uses E s' j = uses E s j := by
    intro j
    rw [uses, uses, hvars, hslots, hprepared, hframes]
  have hown : ∀ {j}, 0 < s.slots.count j + s.prepared.count j + (locals s.frames).count j → ¬P j := by
    intro j hj hp
    have honce := h.once j
    have hpos := hP j hp
    unfold uses at honce
    omega
  have hkept : ∀ {j b}, 0 < s.slots.count j + s.prepared.count j + (locals s.frames).count j →
      s.heap.blockOf j = some b → s'.heap.blockOf j = some b := by
    intro j b hj hb
    obtain ⟨t, ht⟩ := h.safe.counted.tag hb
    obtain ⟨-, hb', -⟩ := hs.keeps.on (hown hj) hb ht
    exact hb'
  refine ⟨hs.safe, ?_, ?_, ?_, ?_, ?_, ?_, ?_, ?_⟩
  · intro j
    rw [huses]
    exact h.once j
  · intro j hj
    rw [huses]
    exact h.absent (hs.slots ▸ hj)
  · intro j b hb
    rw [huses]
    by_cases hp : P j
    · have := hP j hp
      unfold uses
      omega
    · cases hb' : s.heap.blockOf j with
      | none =>
        rw [hs.keeps.nowhere hp hb'] at hb
        contradiction
      | some c => exact h.named hb'
  · rw [hslots, hprepared, hframes]
    intro j hj
    obtain ⟨b, hb⟩ := h.full hj
    exact ⟨b, hkept hj hb⟩
  · rw [hslots, hframes]
    intro j l b hj hl hb hb'
    obtain ⟨c, hc⟩ := h.full (i := j) (by omega)
    obtain ⟨d, hd⟩ := h.full (i := l) (by omega)
    have hbc := (hkept (by omega) hc).symm.trans hb
    have hbd := (hkept (by omega) hd).symm.trans hb'
    exact h.apart hj hl (hc.trans hbc) (hd.trans hbd)
  · rw [hframes]
    exact h.nested
  · rw [hframes, hs.slots]
    exact h.entered
  · rw [hframes, hslots]
    intro j hj hslot
    obtain ⟨b, t, hb, ht, hreentrant⟩ := reentrant_iff.mp (h.busy hj hslot)
    obtain ⟨t', hb', ht', hkeep, -⟩ := hs.keeps.on (hown (by omega)) hb ht
    exact reentrant_iff.mpr ⟨b, t', hb', ht', (hkeep (hR j hj hslot b hb)).trans hreentrant⟩

theorem Inv.tells (h : Inv E s) {P N : Nat → Prop} (hs : Handles P N Nothing s s')
    (hP : ∀ j, P j → 0 < E.count j + s.vars.count j) : Inv E s' :=
  h.handles hs hP fun _ _ _ _ _ => id

/-! ## Objects that come and go -/

theorem Inv.comes (h : Inv E s) (hs : Comes s i s') : Inv (i :: E) s' := by
  have huses : ∀ j, uses (i :: E) s' j = uses E s j + if i = j then 1 else 0 := by
    intro j
    simp only [uses, State.slots, hs.vars, hs.map, hs.prepared, hs.frames, List.count_cons, beq_iff_eq]
    omega
  have hnew : uses E s i = 0 := h.absent (hs.slot ▸ Nat.le_refl _)
  have hold : ∀ {j}, 0 < s.slots.count j + s.prepared.count j + (locals s.frames).count j → j ≠ i := by
    rintro j hj rfl
    unfold uses at hnew
    omega
  have hkept : ∀ {j b}, j ≠ i → s.heap.blockOf j = some b → s'.heap.blockOf j = some b := by
    intro j b hj hb
    obtain ⟨t, ht⟩ := h.safe.counted.tag hb
    obtain ⟨-, hb', -⟩ := hs.keeps.on hj hb ht
    exact hb'
  have hslots : s'.slots = s.slots := by rw [State.slots, hs.map, State.slots]
  refine ⟨hs.safe, ?_, ?_, ?_, ?_, ?_, ?_, ?_, ?_⟩
  · intro j
    rw [huses]
    have honce := h.once j
    split_ifs with hij
    · rw [← hij, hnew]
    · omega
  · intro j hj
    rw [hs.slots] at hj
    rw [huses, h.absent (by omega), if_neg (by have := hs.slot; omega)]
  · intro j b hb
    rw [huses]
    split_ifs with hij
    · omega
    · cases hb' : s.heap.blockOf j with
      | none =>
        rw [hs.keeps.nowhere (Ne.symm hij) hb'] at hb
        contradiction
      | some c => exact h.named hb'
  · rw [hslots, hs.prepared, hs.frames]
    intro j hj
    obtain ⟨b, hb⟩ := h.full hj
    exact ⟨b, hkept (hold hj) hb⟩
  · rw [hslots, hs.frames]
    intro j l b hj hl hb hb'
    obtain ⟨c, hc⟩ := h.full (i := j) (by omega)
    obtain ⟨d, hd⟩ := h.full (i := l) (by omega)
    have hbc := (hkept (hold (by omega)) hc).symm.trans hb
    have hbd := (hkept (hold (by omega)) hd).symm.trans hb'
    exact h.apart hj hl (hc.trans hbc) (hd.trans hbd)
  · rw [hs.frames]
    exact h.nested
  · rw [hs.frames, hs.slots]
    intro j hj
    exact Nat.lt_succ_of_lt (h.entered hj)
  · rw [hs.frames, hslots]
    intro j hj hslot
    obtain ⟨b, t, hb, ht, hreentrant⟩ := reentrant_iff.mp (h.busy hj hslot)
    obtain ⟨t', hb', ht', hkeep, -⟩ := hs.keeps.on (hold (by omega)) hb ht
    exact reentrant_iff.mpr ⟨b, t', hb', ht', (hkeep id).trans hreentrant⟩

/-- Objects change their owners; those without a block may go. -/
theorem Inv.moves (h : Inv E s) {E' : List Nat} (vars : List Nat) (map : List (String × Nat)) (prepared : List Nat)
    (frames : List Frame)
    (hle : ∀ j, uses E' { s with vars := vars, map := map, prepared := prepared, frames := frames } j ≤ uses E s j)
    (hge : ∀ j b, s.heap.blockOf j = some b →
      uses E s j ≤ uses E' { s with vars := vars, map := map, prepared := prepared, frames := frames } j)
    (hfull : ∀ j, 0 < (map.map Prod.snd).count j + prepared.count j + (locals frames).count j →
      ∃ b, s.heap.blockOf j = some b)
    (hapart : ∀ i j b, 0 < (map.map Prod.snd).count i + (locals frames).count i →
      0 < (map.map Prod.snd).count j + (locals frames).count j →
      s.heap.blockOf i = some b → s.heap.blockOf j = some b → i = j)
    (hnested : (entries frames).Nodup) (hentered : ∀ j ∈ entries frames, j < s.heap.slots)
    (hbusy : ∀ j ∈ entries frames, 0 < (map.map Prod.snd).count j → reentrant s j = true) :
    Inv E' { s with vars := vars, map := map, prepared := prepared, frames := frames } where
  safe := h.safe
  once j := (hle j).trans (h.once j)
  absent hj := Nat.le_zero.mp ((h.absent hj) ▸ hle _)
  named hb := Nat.lt_of_lt_of_le (h.named hb) (hge _ _ hb)
  full := hfull _
  apart := hapart _ _ _
  nested := hnested
  entered := hentered _
  busy := hbusy _

theorem Inv.moveVars (h : Inv E s) {E' : List Nat} (vars : List Nat)
    (hle : ∀ j, E'.count j + vars.count j ≤ E.count j + s.vars.count j)
    (hge : ∀ j b, s.heap.blockOf j = some b → E.count j + s.vars.count j ≤ E'.count j + vars.count j) :
    Inv E' { s with vars := vars } := by
  apply h.moves vars s.map s.prepared s.frames
  · intro j
    have := hle j
    simp only [uses, State.slots]
    omega
  · intro j b hb
    have := hge j b hb
    simp only [uses, State.slots]
    omega
  · exact fun j => h.full
  · exact fun i j b => h.apart
  · exact h.nested
  · exact fun j => h.entered
  · exact fun j => h.busy

/-- The client gets a handle. -/
theorem Inv.newVar (h : Inv (i :: E) s) : Inv E (newVar s i) := by
  apply h.moveVars (i :: s.vars)
  · intro j
    simp only [List.count_cons]
    omega
  · intro j b _
    simp only [List.count_cons]
    omega

/-- A handle without a block ends. -/
theorem Inv.eraseVar (h : Inv E s) (hi : i ∈ s.vars) (hnone : s.heap.blockOf i = none) :
    Inv E { s with vars := s.vars.erase i } := by
  apply h.moveVars (s.vars.erase i)
  · intro j
    have := (List.erase_sublist (a := i) (l := s.vars)).count_le j
    omega
  · intro j b hb
    rw [List.count_erase_of_ne]
    rintro rfl
    rw [hnone] at hb
    contradiction

theorem Inv.forget (h : Inv (i :: E) s) (hnone : s.heap.blockOf i = none) : Inv E s := by
  apply h.moveVars s.vars
  · intro j
    simp only [List.count_cons]
    omega
  · intro j b hb
    rw [List.count_cons_of_ne]
    rintro rfl
    rw [hnone] at hb
    contradiction

/-- `m_prepared_statements.push_back` -/
theorem Inv.queue (h : Inv (i :: E) s) {b : Nat} (hb : s.heap.blockOf i = some b) :
    Inv E { s with prepared := s.prepared ++ [i] } := by
  apply h.moves s.vars s.map (s.prepared ++ [i]) s.frames
  · intro j
    simp only [uses, State.slots, List.count_cons, List.count_append, List.count_nil]
    omega
  · intro j c _
    simp only [uses, State.slots, List.count_cons, List.count_append, List.count_nil]
    omega
  · intro j hj
    by_cases hij : j = i
    · exact ⟨b, hij ▸ hb⟩
    · rw [List.count_append, List.count_singleton, if_neg (by simpa using Ne.symm hij), Nat.add_zero] at hj
      exact h.full hj
  · exact fun i j b => h.apart
  · exact h.nested
  · exact fun j => h.entered
  · exact fun j => h.busy

/-- The block of a handle is none of those that the database's entries and calls have to themselves. -/
def Alone (s : State) (i : Nat) : Prop :=
  ∃ b, s.heap.blockOf i = some b ∧
    ∀ j, s.heap.blockOf j = some b → s.slots.count j + (locals s.frames).count j = 0

theorem Inv.alone (h : Inv (i :: E) s) {b : Nat} (hb : s.heap.blockOf i = some b)
    (halone : ∀ j, s.heap.blockOf j = some b → j = i ∨ j ∈ s.prepared) : Alone s i := by
  refine ⟨b, hb, fun j hj => ?_⟩
  have honce := h.once j
  simp only [uses, List.count_cons] at honce
  rcases halone j hj with rfl | hmem
  · simp only [beq_self_eq_true, if_true] at honce
    omega
  · have := List.count_pos_iff.mpr hmem
    omega

/-- A handle on a block of its own becomes one of the entries, or what a call of `prepare` keeps. -/
theorem Inv.keep (h : Inv (i :: E) s) (halone : Alone s i) (map : List (String × Nat)) (frames : List Frame)
    (hcount : ∀ j, (map.map Prod.snd).count j + (locals frames).count j
      = s.slots.count j + (locals s.frames).count j + if i = j then 1 else 0)
    (hslots : ∀ j ∈ entries s.frames, (map.map Prod.snd).count j ≤ s.slots.count j)
    (hentries : entries frames = entries s.frames) :
    Inv E { s with map := map, frames := frames } := by
  obtain ⟨b, hb, hother⟩ := halone
  apply h.moves s.vars map s.prepared frames
  · intro j
    have := hcount j
    simp only [uses, State.slots, List.count_cons, beq_iff_eq] at *
    omega
  · intro j c _
    have := hcount j
    simp only [uses, State.slots, List.count_cons, beq_iff_eq] at *
    omega
  · intro j hj
    have := hcount j
    by_cases hij : i = j
    · exact ⟨b, hij ▸ hb⟩
    · rw [if_neg hij] at this
      exact h.full (by omega)
  · intro l j c hl hj hc hc'
    rw [hcount] at hl hj
    split_ifs at hl hj with hil hij hij
    · exact hil.symm.trans hij
    · obtain rfl : b = c := Option.some.inj (hb.symm.trans (hil ▸ hc))
      have := hother j hc'
      omega
    · obtain rfl : b = c := Option.some.inj (hb.symm.trans (hij ▸ hc'))
      have := hother l hc
      omega
    · exact h.apart hl hj hc hc'
  · rw [hentries]
    exact h.nested
  · rw [hentries]
    exact fun j => h.entered
  · rw [hentries]
    exact fun j hj hpos => h.busy hj (Nat.lt_of_lt_of_le hpos (hslots j hj))

/-- A new entry of the map. -/
theorem Inv.track (h : Inv (i :: E) s) (halone : Alone s i) (hentry : i ∉ entries s.frames) (str : String) :
    Inv E { s with map := (str, i) :: s.map } := by
  apply h.keep halone ((str, i) :: s.map) s.frames
  · intro j
    simp only [List.map_cons, List.count_cons, beq_iff_eq, State.slots]
    omega
  · intro j hj
    rw [List.map_cons, List.count_cons_of_ne, State.slots]
    rintro rfl
    exact hentry hj
  · rfl

/-- A call with a statement of its own. -/
theorem Inv.transient (h : Inv (i :: E) s) (halone : Alone s i) :
    Inv E { s with frames := .transient i :: s.frames } := by
  apply h.keep halone s.map (.transient i :: s.frames)
  · intro j
    change s.slots.count j + (i :: locals s.frames).count j = _
    simp only [List.count_cons, beq_iff_eq]
    omega
  · exact fun j _ => Nat.le_refl _
  · rfl

/-- The call ends, and its statement is without an owner. -/
theorem Inv.endTransient (h : Inv E s) {frames : List Frame} (hframes : s.frames = .transient i :: frames) :
    Inv (i :: E) { s with frames := frames } := by
  have hlocals : ∀ j, (locals s.frames).count j = (locals frames).count j + if i = j then 1 else 0 := by
    intro j
    rw [hframes]
    change (i :: locals frames).count j = _
    rw [List.count_cons]
    simp only [beq_iff_eq]
  have hentries : entries s.frames = entries frames := by
    rw [hframes]
    rfl
  apply h.moves s.vars s.map s.prepared frames
  · intro j
    have := hlocals j
    simp only [uses, State.slots, List.count_cons, beq_iff_eq]
    omega
  · intro j b _
    have := hlocals j
    simp only [uses, State.slots, List.count_cons, beq_iff_eq]
    omega
  · intro j hj
    have := hlocals j
    exact h.full (by simp only [State.slots]; omega)
  · intro l j b hl hj
    have := hlocals l
    have := hlocals j
    exact h.apart (by simp only [State.slots]; omega) (by simp only [State.slots]; omega)
  · exact hentries ▸ h.nested
  · exact hentries ▸ fun j => h.entered
  · exact hentries ▸ fun j => h.busy

/-- The call ends, whatever has become of the entry. -/
theorem Inv.endTracked (h : Inv E s) {frames : List Frame} (hframes : s.frames = .tracked i :: frames) :
    Inv E { s with frames := frames } := by
  have hlocals : locals s.frames = locals frames := by
    rw [hframes]
    rfl
  have hentries : entries s.frames = i :: entries frames := by
    rw [hframes]
    rfl
  apply h.moves s.vars s.map s.prepared frames
  · intro j
    simp only [uses, State.slots, hlocals]
    omega
  · intro j b _
    simp only [uses, State.slots, hlocals]
    omega
  · exact fun j hj => h.full (hlocals ▸ hj)
  · exact fun l j b hl hj => h.apart (hlocals ▸ hl) (hlocals ▸ hj)
  · exact (List.nodup_cons.mp (hentries ▸ h.nested)).2
  · exact fun j hj => h.entered (hentries ▸ List.mem_cons_of_mem i hj)
  · exact fun j hj => h.busy (hentries ▸ List.mem_cons_of_mem i hj)

/-- The map is cleared, and its entries are without an owner. -/
theorem Inv.clear (h : Inv E s) : Inv (s.slots ++ E) { s with map := [] } := by
  apply h.moves s.vars [] s.prepared s.frames
  · intro j
    simp only [uses, State.slots, List.count_append, List.map_nil, List.count_nil]
    omega
  · intro j b _
    simp only [uses, State.slots, List.count_append, List.map_nil, List.count_nil]
    omega
  · intro j hj
    simp only [List.map_nil, List.count_nil] at hj
    exact h.full (by omega)
  · intro l j b hl hj
    simp only [List.map_nil, List.count_nil] at hl hj
    exact h.apart (by omega) (by omega)
  · exact h.nested
  · exact fun j => h.entered
  · exact fun j _ hj => absurd hj (Nat.lt_irrefl 0)

theorem Inv.forgetAll {is : List Nat} (h : Inv (is ++ E) s) (hnone : ∀ i ∈ is, s.heap.blockOf i = none) :
    Inv E s := by
  induction is with
  | nil => exact h
  | cons i is ih =>
    exact ih (Inv.forget h (hnone i List.mem_cons_self)) fun j hj => hnone j (List.mem_cons_of_mem i hj)

/-! ## `set_reentrant` -/

/-- The flag of an entry is set. -/
theorem Inv.setReentrant (h : Inv E s) {b : Nat} (hb : s.heap.blockOf i = some b) (val : Bool) :
    Handles Nothing Nothing (· = b) s (setReentrant s i val) ∧ reentrant (setReentrant s i val) i = val := by
  obtain ⟨t, ht⟩ := h.safe.counted.tag hb
  have heq : Statements.setReentrant s i val = setShared s b { t with reentrant := val } := by
    rw [Statements.setReentrant, hb]
    simp only [ht]
  rw [heq]
  constructor
  · apply h.safe.handles_setShared ht
    · rfl
    · rfl
    · exact fun hne => absurd rfl hne
  · have hblock : (setShared s b { t with reentrant := val }).heap.blockOf i = some b :=
      (blockOf_retag _ _ _).trans hb
    have htag : (setShared s b { t with reentrant := val }).heap.tagOf b = some { t with reentrant := val } := by
      rw [setShared, tagOf_retag ht, if_pos rfl]
    rw [reentrant, hblock]
    simp only [htag, Option.map_some, Option.getD_some]

theorem mem_slots_iff {j : Nat} : j ∈ s.slots ↔ 0 < s.slots.count j := List.count_pos_iff.symm

/-- A function is called with an entry that is not in use. -/
theorem Inv.enter (h : Inv E s) (hi : i ∈ s.slots) (hfree : reentrant s i = false) :
    Inv E { Statements.setReentrant s i true with frames := .tracked i :: s.frames } := by
  have hpos := mem_slots_iff.mp hi
  obtain ⟨b, hb⟩ := h.full (i := i) (by omega)
  obtain ⟨hhandles, hset⟩ := h.setReentrant hb true
  have hunused : i ∉ entries s.frames := by
    intro hmem
    rw [h.busy hmem hpos] at hfree
    contradiction
  have hinv := h.handles hhandles (fun _ hp => hp.elim) (by
    rintro j hj hslot c hc rfl
    exact hunused (h.apart (by omega) (by omega) hc hb ▸ hj))
  have hframes : (Statements.setReentrant s i true).frames = s.frames := by rw [hhandles.rest]
  have hslots : (Statements.setReentrant s i true).slots = s.slots := by rw [hhandles.rest]; rfl
  apply hinv.moves (Statements.setReentrant s i true).vars (Statements.setReentrant s i true).map
    (Statements.setReentrant s i true).prepared (.tracked i :: s.frames)
  · intro j
    simp only [uses, State.slots, hframes]
    exact Nat.le_refl _
  · intro j c _
    simp only [uses, State.slots, hframes]
    exact Nat.le_refl _
  · intro j hj
    exact hinv.full (hframes ▸ hj)
  · intro l j c hl hj
    exact hinv.apart (hframes ▸ hl) (hframes ▸ hj)
  · exact List.nodup_cons.mpr ⟨hunused, h.nested⟩
  · intro j hj
    rw [hhandles.slots]
    rcases List.mem_cons.mp hj with rfl | hj
    · exact h.safe.counted.lt_slots hb
    · exact h.entered hj
  · intro j hj hslot
    rcases List.mem_cons.mp hj with rfl | hj
    · exact hset
    · exact hinv.busy (hframes ▸ hj) hslot

end

end Nodeoze.Database.Statements
