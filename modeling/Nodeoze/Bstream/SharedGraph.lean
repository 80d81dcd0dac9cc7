import Nodeoze.Bstream.Ibstream

/-!
# The order in which a graph of shared objects is streamed

Writer and reader number the shared objects of a stream in the order in which they complete them,
children first.  `visit` is that order, stated on the graph alone, and `repeats` lists, for every
pointer at an object already completed, the number of that object: the back references.

`Sync` is the lock step of the two tables: whatever has been visited, the writer's table maps the
address of each object to its number and type tag, and the reader's table holds, at that number,
the copy of the object.
-/

namespace Nodeoze.Bstream

open Reader

namespace Val

mutual

/-- The addresses completed after `v` has been streamed, oldest first. -/
def visit : Val → List Nat → List Nat
  | .seq vs, seen => visitAll vs seen
  | .obj _ parts, seen => visitAll parts seen
  | .own _ v, seen => visit v seen
  | .shared _ a v, seen => if a ∈ seen then seen else visit v seen ++ [a]
  | _, seen => seen

def visitAll : List Val → List Nat → List Nat
  | [], seen => seen
  | v :: vs, seen => visitAll vs (visit v seen)

end

mutual

/-- The numbers of the objects that `v` points at although they are completed. -/
def repeats : Val → List Nat → List Nat
  | .seq vs, seen => repeatsAll vs seen
  | .obj _ parts, seen => repeatsAll parts seen
  | .own _ v, seen => repeats v seen
  | .shared _ a v, seen => if a ∈ seen then [seen.idxOf a] else repeats v seen
  | _, _ => []

def repeatsAll : List Val → List Nat → List Nat
  | [], _ => []
  | v :: vs, seen => repeats v seen ++ repeatsAll vs (visit v seen)

end

/-- The class of an object. -/
def classOf : Val → Nat
  | .obj d _ => d
  | _ => 0

end Val

namespace Context

variable (C : Context)

mutual

/-- Every pointer in the value points at the start of its object. -/
def aligned : Val → Bool
  | .seq vs => alignedAll vs
  | .obj _ parts => alignedAll parts
  | .own t v => C.subobject t v == 0 && aligned v
  | .shared t _ v => C.subobject t v == 0 && aligned v
  | _ => true

def alignedAll : List Val → Bool
  | [] => true
  | v :: vs => aligned v && alignedAll vs

end

/-- A back reference whose number is written with the code of a 32-bit unsigned number. -/
def misread (serial : Nat) : Bool := decide (0xffff < serial ∧ serial ≤ 0xffffffff)

/-- The values that survive a round trip, given the objects completed before. -/
def Good (v : Val) (seen : List Nat) : Prop :=
  C.aligned v = true ∧ (C.dedupSharedPtrs = true → ∀ k ∈ v.repeats seen, misread k = false)

def GoodAll (vs : List Val) (seen : List Nat) : Prop :=
  C.alignedAll vs = true ∧
    (C.dedupSharedPtrs = true → ∀ k ∈ Val.repeatsAll vs seen, misread k = false)

theorem goodAll_nil (seen : List Nat) : C.GoodAll [] seen :=
  ⟨rfl, fun _ _ h => nomatch h⟩

theorem goodAll_cons {v : Val} {vs : List Val} {seen : List Nat} :
    C.GoodAll (v :: vs) seen ↔ C.Good v seen ∧ C.GoodAll vs (v.visit seen) := by
  simp only [GoodAll, Good, alignedAll, Bool.and_eq_true, Val.repeatsAll, List.mem_append]
  constructor
  · rintro ⟨⟨h1, h2⟩, h3⟩
    exact ⟨⟨h1, fun hd k hk => h3 hd k (.inl hk)⟩, h2, fun hd k hk => h3 hd k (.inr hk)⟩
  · rintro ⟨⟨h1, h2⟩, h3, h4⟩
    exact ⟨⟨h1, h3⟩, fun hd k hk => hk.elim (h2 hd k) (h4 hd k)⟩

/-! ### What a visit adds -/

theorem visit_extends (v : Val) : ∀ seen, seen <+: v.visit seen := by
  have hall : ∀ vs : List Val, (∀ v ∈ vs, ∀ seen, seen <+: v.visit seen) →
      ∀ seen, seen <+: Val.visitAll vs seen := by
    intro vs
    induction vs with
    | nil => intro _ seen; exact List.prefix_rfl
    | cons v vs ih =>
      intro h seen
      obtain ⟨hv, hvs⟩ := List.forall_mem_cons.mp h
      exact (hv seen).trans (ih hvs (v.visit seen))
  induction v with
  | seq vs ih => exact hall vs ih
  | obj c parts ih => exact hall parts ih
  | own t v ih => exact ih
  | shared t a v ih =>
    intro seen
    simp only [Val.visit]
    split_ifs
    · exact List.prefix_rfl
    · exact (ih seen).trans (List.prefix_append _ _)
  | _ => intro seen; exact List.prefix_rfl

/-- The objects at the listed addresses point only at listed addresses. -/
def Closed (heap : Nat → Val) (seen : List Nat) : Prop :=
  ∀ a ∈ seen, ∀ n ∈ (heap a).nodes, n.1 ∈ seen

/-- A visit of the coherent value `v` lists all its addresses and keeps the list closed. -/
def Visits (heap : Nat → Val) (v : Val) : Prop :=
  v.Coherent heap → ∀ seen, Closed heap seen →
    (∀ n ∈ v.nodes, n.1 ∈ v.visit seen) ∧ Closed heap (v.visit seen)

theorem visitAll_extends (vs : List Val) (seen : List Nat) : seen <+: Val.visitAll vs seen := by
  simpa [Val.visit] using visit_extends (.seq vs) seen

theorem visitAll_closed {heap : Nat → Val} {vs : List Val} (h : ∀ v ∈ vs, Visits heap v)
    (hco : ∀ v ∈ vs, v.Coherent heap) {seen : List Nat} (hseen : Closed heap seen) :
    (∀ v ∈ vs, ∀ n ∈ v.nodes, n.1 ∈ Val.visitAll vs seen) ∧
      Closed heap (Val.visitAll vs seen) := by
  induction vs generalizing seen with
  | nil =>
    refine ⟨?_, hseen⟩
    intro v hv
    cases hv
  | cons v vs ih =>
    obtain ⟨hv, hvs⟩ := List.forall_mem_cons.mp h
    obtain ⟨hcv, hcvs⟩ := List.forall_mem_cons.mp hco
    obtain ⟨h1, h2⟩ := hv hcv seen hseen
    obtain ⟨h3, h4⟩ := ih hvs hcvs h2
    refine ⟨?_, h4⟩
    intro u hu n hn
    rcases List.mem_cons.mp hu with rfl | hu
    · exact (visitAll_extends vs _).subset (h1 n hn)
    · exact h3 u hu n hn

theorem coherent_of_mem {heap : Nat → Val} {vs : List Val}
    (h : ∀ n ∈ vs.flatMap Val.nodes, heap n.1 = n.2) : ∀ v ∈ vs, v.Coherent heap :=
  fun v hv n hn => h n (List.mem_flatMap.mpr ⟨v, hv, hn⟩)

theorem visits (heap : Nat → Val) (v : Val) : Visits heap v := by
  have hlist : ∀ vs : List Val, (∀ v ∈ vs, Visits heap v) →
      (∀ n ∈ vs.flatMap Val.nodes, heap n.1 = n.2) → ∀ seen, Closed heap seen →
      (∀ n ∈ vs.flatMap Val.nodes, n.1 ∈ Val.visitAll vs seen) ∧
        Closed heap (Val.visitAll vs seen) := by
    intro vs ih hco seen hseen
    obtain ⟨h1, h2⟩ := visitAll_closed ih (coherent_of_mem hco) hseen
    refine ⟨?_, h2⟩
    intro n hn
    obtain ⟨v, hv, hn⟩ := List.mem_flatMap.mp hn
    exact h1 v hv n hn
  induction v with
  | seq vs ih => simpa [Visits, Val.Coherent, Val.nodes, Val.visit] using hlist vs ih
  | obj c parts ih => simpa [Visits, Val.Coherent, Val.nodes, Val.visit] using hlist parts ih
  | own t v ih => exact ih
  | shared t a v ih =>
    intro hco seen hseen
    have hcv : v.Coherent heap := fun n hn => hco n (by simp [Val.nodes, hn])
    have ha : heap a = v := hco (a, v) (by simp [Val.nodes])
    simp only [Val.visit, Val.nodes, List.mem_append, List.mem_singleton]
    split_ifs with hmem
    · refine ⟨?_, hseen⟩
      rintro n (hn | rfl)
      · exact hseen a hmem n (by rwa [ha])
      · exact hmem
    · obtain ⟨h1, h2⟩ := ih hcv seen hseen
      constructor
      · rintro n (hn | rfl)
        · exact List.mem_append_left _ (h1 n hn)
        · simp
      · intro b hb n hn
        rcases List.mem_append.mp hb with hb | hb
        · exact List.mem_append_left _ (h2 b hb n hn)
        · rw [List.mem_singleton.mp hb, ha] at hn
          exact List.mem_append_left _ (h1 n hn)
  | _ =>
    intro hco seen hseen
    refine ⟨?_, hseen⟩
    intro n hn
    cases hn

theorem mem_visit {v : Val} {a : Nat} :
    ∀ {seen}, a ∈ v.visit seen → a ∈ seen ∨ ∃ n ∈ v.nodes, n.1 = a := by
  have hlist : ∀ vs : List Val,
      (∀ v ∈ vs, ∀ {seen}, a ∈ v.visit seen → a ∈ seen ∨ ∃ n ∈ v.nodes, n.1 = a) →
      ∀ {seen}, a ∈ Val.visitAll vs seen → a ∈ seen ∨ ∃ n ∈ vs.flatMap Val.nodes, n.1 = a := by
    intro vs
    induction vs with
    | nil => intro _ seen h; exact .inl h
    | cons v vs ih =>
      intro hall seen h
      obtain ⟨hv, hvs⟩ := List.forall_mem_cons.mp hall
      rcases ih hvs h with h | ⟨n, hn, hna⟩
      · rcases hv h with h | ⟨n, hn, hna⟩
        · exact .inl h
        · exact .inr ⟨n, by simp [hn], hna⟩
      · exact .inr ⟨n, by simp only [List.flatMap_cons, List.mem_append, hn, or_true], hna⟩
  induction v with
  | seq vs ih =>
    intro seen h
    simpa only [Val.nodes, Val.nodesList_eq_flatMap] using hlist vs ih h
  | obj c parts ih =>
    intro seen h
    simpa only [Val.nodes, Val.nodesList_eq_flatMap] using hlist parts ih h
  | own t v ih => exact ih
  | shared t b v ih =>
    intro seen h
    simp only [Val.visit] at h
    split_ifs at h with hmem
    · exact .inl h
    · rcases List.mem_append.mp h with h | h
      · rcases ih h with h | ⟨n, hn, hna⟩
        · exact .inl h
        · exact .inr ⟨n, by simp [Val.nodes, hn], hna⟩
      · exact .inr ⟨(b, v), by simp [Val.nodes], (List.mem_singleton.mp h).symm⟩
  | _ => intro seen h; exact .inl h

/-! ### The two tables -/

/-- The lock step of the writer's and the reader's table. -/
structure InStep (heap : Nat → Val) (seen : List Nat) (w : SavedTags) (s : SavedPtrs) : Prop where
  nodup : seen.Nodup
  bound : ∀ a ∈ seen, a < 2 ^ 64
  closed : Closed heap seen
  aligned : ∀ a ∈ seen, C.aligned (heap a) = true
  tags : w.ptrs = seen.mapIdx fun k a => ((a, 0), (C.typeTag (.cls (heap a).classOf), k))
  tagsNext : w.next = seen.length
  ptrs : s.saved = seen.mapIdx fun k a =>
    (.cls (heap a).classOf, k, (heap a).rename fun b => seen.idxOf b)
  ptrsNext : s.next = seen.length

/-- The lock step, where the context asks for deduplication at all. -/
def Sync (heap : Nat → Val) (seen : List Nat) (w : SavedTags) (s : SavedPtrs) : Prop :=
  C.dedupSharedPtrs = true → C.InStep heap seen w s

theorem sync_init (heap : Nat → Val) : C.Sync heap [] {} {} := fun _ =>
  { nodup := List.nodup_nil
    bound := fun _ h => nomatch h
    closed := fun _ h => nomatch h
    aligned := fun _ h => nomatch h
    tags := rfl
    tagsNext := rfl
    ptrs := rfl
    ptrsNext := rfl }

theorem idxOf_eq_of_extends {seen seen' : List Nat} (h : seen <+: seen') {a : Nat} (ha : a ∈ seen) :
    seen'.idxOf a = seen.idxOf a := by
  obtain ⟨more, rfl⟩ := h
  exact List.idxOf_append_of_mem ha

/-- The copy of a value does not change when more objects are completed. -/
theorem rename_idxOf_of_extends {seen seen' : List Nat} (h : seen <+: seen') {v : Val}
    (hv : ∀ n ∈ v.nodes, n.1 ∈ seen) :
    (v.rename fun a => seen'.idxOf a) = v.rename fun a => seen.idxOf a :=
  Val.rename_congr fun n hn => idxOf_eq_of_extends h (hv n hn)

theorem lookup_mapIdx {β : Type} (g : Nat → Nat → β) (seen : List Nat) (a : Nat) :
    (seen.mapIdx fun k b => ((b, 0), g k b)).lookup (a, 0) =
      if a ∈ seen then some (g (seen.idxOf a) a) else none := by
  induction seen using List.reverseRecOn with
  | nil => rfl
  | append_singleton seen b ih =>
    rw [List.mapIdx_concat, List.lookup_append, ih]
    by_cases ha : a ∈ seen
    · simp [ha, List.idxOf_append_of_mem ha]
    · by_cases hab : a = b
      · subst hab
        simp [ha, List.idxOf_append_of_notMem ha]
      · have hne : ((a, 0) == (b, 0)) = false := by simp [hab]
        simp [ha, hab, List.lookup_cons, hne]

theorem lookup_mapIdx_offset {β : Type} (g : Nat → Nat → β) (seen : List Nat) (a : Nat) {off : Nat}
    (hoff : off ≠ 0) : (seen.mapIdx fun k b => ((b, 0), g k b)).lookup (a, off) = none := by
  induction seen using List.reverseRecOn with
  | nil => rfl
  | append_singleton seen b ih =>
    have hne : ((a, off) == (b, 0)) = false := by simp [hoff]
    rw [List.mapIdx_concat, List.lookup_append, ih]
    simp [List.lookup_cons, hne]

/-- The lock step over a heap whose object at address `a` has the type `ty a`. -/
structure Lockstep (heap : Nat → Val) (ty : Nat → Ty) (seen : List Nat) (w : SavedTags)
    (s : SavedPtrs) : Prop where
  nodup : seen.Nodup
  bound : ∀ a ∈ seen, a < 2 ^ 64
  closed : Closed heap seen
  tags : w.ptrs = seen.mapIdx fun k a => ((a, 0), (C.typeTag (ty a), k))
  tagsNext : w.next = seen.length
  ptrs : s.saved = seen.mapIdx fun k a => (ty a, k, (heap a).rename fun b => seen.idxOf b)
  ptrsNext : s.next = seen.length

theorem lockstep_init (heap : Nat → Val) (ty : Nat → Ty) : C.Lockstep heap ty [] {} {} where
  nodup := List.nodup_nil
  bound := fun _ h => nomatch h
  closed := fun _ h => nomatch h
  tags := rfl
  tagsNext := rfl
  ptrs := rfl
  ptrsNext := rfl

variable {C} {heap : Nat → Val} {ty : Nat → Ty} {seen : List Nat} {w : SavedTags} {s : SavedPtrs}

namespace Lockstep

theorem find_of_mem (h : C.Lockstep heap ty seen w s) {a : Nat} (ha : a ∈ seen) :
    w.find (a, 0) = some (C.typeTag (ty a), seen.idxOf a) := by
  rw [SavedTags.find, h.tags, lookup_mapIdx (fun k b => (C.typeTag (ty b), k)), if_pos ha]

theorem find_of_not_mem (h : C.Lockstep heap ty seen w s) {a : Nat} (ha : a ∉ seen) :
    w.find (a, 0) = none := by
  rw [SavedTags.find, h.tags, lookup_mapIdx (fun k b => (C.typeTag (ty b), k)), if_neg ha]

/-- A pointer into the middle of an object is never found. -/
theorem find_of_offset (h : C.Lockstep heap ty seen w s) (a : Nat) {off : Nat} (hoff : off ≠ 0) :
    w.find (a, off) = none := by
  rw [SavedTags.find, h.tags, lookup_mapIdx_offset (fun k b => (C.typeTag (ty b), k)) seen a hoff]

theorem saved_of_mem (h : C.Lockstep heap ty seen w s) {a : Nat} (ha : a ∈ seen) :
    s.saved[seen.idxOf a]? =
      some (ty a, seen.idxOf a, (heap a).rename fun b => seen.idxOf b) := by
  have hlt : seen.idxOf a < seen.length := List.idxOf_lt_length_of_mem ha
  rw [h.ptrs, List.getElem?_mapIdx, List.getElem?_eq_getElem hlt]
  simp

/-- There are fewer saved objects than addresses. -/
theorem length_le (h : C.Lockstep heap ty seen w s) : seen.length ≤ 2 ^ 64 := by
  have hsub : seen.toFinset ⊆ Finset.range (2 ^ 64) := by
    intro a ha
    exact Finset.mem_range.mpr (h.bound a (List.mem_toFinset.mp ha))
  have hcard := Finset.card_le_card hsub
  rwa [List.toFinset_card_of_nodup h.nodup, Finset.card_range] at hcard

/-- Saving the next object keeps the tables in step. -/
theorem save (h : C.Lockstep heap ty seen w s) {a : Nat} (ha : a ∉ seen) (hlt : a < 2 ^ 64)
    (hnodes : ∀ n ∈ (heap a).nodes, n.1 ∈ seen) :
    C.Lockstep heap ty (seen ++ [a]) (w.save (a, 0) (C.typeTag (ty a)))
      { saved := s.saved ++ [(ty a, s.next, (heap a).rename fun b => seen.idxOf b)]
        next := s.next + 1 } where
  nodup := by
    rw [List.nodup_append]
    refine ⟨h.nodup, List.nodup_singleton a, ?_⟩
    intro b hb c hc hbc
    rw [List.mem_singleton] at hc
    exact ha (by rwa [← hc, ← hbc])
  bound := by
    intro b hb
    rcases List.mem_append.mp hb with hb | hb
    · exact h.bound b hb
    · rwa [List.mem_singleton.mp hb]
  closed := by
    intro b hb n hn
    rcases List.mem_append.mp hb with hb | hb
    · exact List.mem_append_left _ (h.closed b hb n hn)
    · rw [List.mem_singleton.mp hb] at hn
      exact List.mem_append_left _ (hnodes n hn)
  tags := by
    rw [List.mapIdx_concat, ← h.tags]
    simp [SavedTags.save, h.find_of_not_mem ha, h.tagsNext]
  tagsNext := by simp [SavedTags.save, h.tagsNext]
  ptrs := by
    have hpre : seen <+: seen ++ [a] := List.prefix_append _ _
    have hold : (seen.mapIdx fun k b => (ty b, k,
          (heap b).rename fun c => (seen ++ [a]).idxOf c)) = s.saved := by
      rw [h.ptrs]
      apply List.ext_getElem?
      intro i
      simp only [List.getElem?_mapIdx]
      cases hi : seen[i]? with
      | none => rfl
      | some b =>
        have hb : b ∈ seen := List.mem_of_getElem? hi
        simp only [Option.map_some]
        rw [rename_idxOf_of_extends hpre (h.closed b hb)]
    rw [List.mapIdx_concat, hold, rename_idxOf_of_extends hpre hnodes, h.ptrsNext]
  ptrsNext := by simp [h.ptrsNext]

end Lockstep

/-- Where all shared objects are of class type, an object knows its own type. -/
theorem InStep.lockstep (h : C.InStep heap seen w s) :
    C.Lockstep heap (fun a => .cls (heap a).classOf) seen w s :=
  ⟨h.nodup, h.bound, h.closed, h.tags, h.tagsNext, h.ptrs, h.ptrsNext⟩

theorem InStep.save (h : C.InStep heap seen w s) {a : Nat} (ha : a ∉ seen) (hlt : a < 2 ^ 64)
    (hal : C.aligned (heap a) = true) (hnodes : ∀ n ∈ (heap a).nodes, n.1 ∈ seen) :
    C.InStep heap (seen ++ [a]) (w.save (a, 0) (C.typeTag (.cls (heap a).classOf)))
      { saved := s.saved ++ [(.cls (heap a).classOf, s.next,
          (heap a).rename fun b => seen.idxOf b)]
        next := s.next + 1 } := by
  obtain ⟨hnodup, hbound, hclosed, htags, htagsNext, hptrs, hptrsNext⟩ := h.lockstep.save ha hlt hnodes
  refine ⟨hnodup, hbound, hclosed, ?_, htags, htagsNext, hptrs, hptrsNext⟩
  intro b hb
  rcases List.mem_append.mp hb with hb | hb
  · exact h.aligned b hb
  · rwa [List.mem_singleton.mp hb]

end Context

end Nodeoze.Bstream
