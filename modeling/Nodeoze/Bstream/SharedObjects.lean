import Nodeoze.Bstream.WholeFormat

/-!
# Shared objects of every type

A shared pointer may point at any value that can be streamed: a string, a container, a number, an
enumeration.  `Holds` is the typing of values with such pointers, over a heap whose objects have
the types `ty`.  The reader of a pointer tells the number of an earlier object from a new object
by the first type code alone, and `toldApart` says when that works.  `Carried` is the contract of
a reader for the values in which it works for every pointer: the copy comes back with its objects
numbered in the order of their completion, and the two tables stay in lock step.
-/

namespace Nodeoze.Bstream

open Reader

/-- `Holds C ty t v`: a variable of type `t` can hold the value `v` while the object at address `a`
has the type `ty a`, and every string, blob and container in `v` is shorter than `2 ^ 32`. -/
inductive Holds (C : Context) (ty : Nat → Ty) : Ty → Val → Prop
  | bool (b : Bool) : Holds C ty .bool (.bool b)
  | int {sg : Bool} {w : Width} {i : Int} : InRange sg w i → Holds C ty (.int sg w) (.int sg w i)
  | enum {u : Underlying} {v : Val} : HasUnderlying u v → Holds C ty (.enum u) v
  | float {n : Nat} : n < 2 ^ 32 → Holds C ty .float (.float n)
  | double {n : Nat} : n < 2 ^ 64 → Holds C ty .double (.double n)
  | string {bs : List UInt8} : bs.length < 2 ^ 32 → Holds C ty .string (.string bs)
  | buffer {bs : List UInt8} : bs.length < 2 ^ 32 → Holds C ty .buffer (.buffer bs)
  | pair {a b : Ty} {x y : Val} : Holds C ty a x → Holds C ty b y →
      Holds C ty (.pair a b) (.seq [x, y])
  | tuple {ts : List Ty} {vs : List Val} : ts.length < 2 ^ 32 → vs.length = ts.length →
      (∀ (i : Nat) t v, ts[i]? = some t → vs[i]? = some v → Holds C ty t v) →
      Holds C ty (.tuple ts) (.seq vs)
  | seq {k : Sequence} {t : Ty} {vs : List Val} : vs.length < 2 ^ 32 →
      (∀ v ∈ vs, Holds C ty t v) → Holds C ty (.seq k t) (.seq vs)
  | set {k : Assoc} {t : Ty} {vs : List Val} : vs.length < 2 ^ 32 →
      (∀ v ∈ vs, Holds C ty t v) → vs.Pairwise (C.Precedes id k) → Holds C ty (.set k t) (.seq vs)
  | map {k : Assoc} {kt vt : Ty} {vs : List Val} : vs.length < 2 ^ 32 →
      (∀ v ∈ vs, Holds C ty (.pair kt vt) v) → vs.Pairwise (C.Precedes Val.first k) →
      Holds C ty (.map k kt vt) (.seq vs)
  | cls {c : Nat} {vs : List Val} : vs.length = C.itemCount c →
      (∀ (i : Nat) t v, (C.parts c)[i]? = some t → vs[i]? = some v → Holds C ty t v) →
      Holds C ty (.cls c) (.obj c vs)
  | nullUnique (t : Ty) : Holds C ty (.uniquePtr t) .null
  | nullShared (t : Ty) : Holds C ty (.sharedPtr t) .null
  | own {t d : Ty} {v : Val} : C.Points t d → Holds C ty d v → Holds C ty (.uniquePtr t) (.own t v)
  | shared {t : Ty} {a : Nat} {v : Val} : C.Points t (ty a) → a < 2 ^ 64 → Holds C ty (ty a) v →
      Holds C ty (.sharedPtr t) (.shared t a v)

namespace Context

variable (C : Context)

/-! ### What the reader can tell -/

/-- The pointer of type `t` at the object `v` points at its start, and its encoding starts with the
code of a positive number exactly if the object has been completed before. -/
def toldApart (t : Ty) (a : Nat) (v : Val) (seen : List Nat) : Bool :=
  C.subobject t v == 0 && if a ∈ seen then !misread (seen.idxOf a) else !numbered v

mutual

/-- The reader can tell what every pointer in the value is. -/
def apart : Val → List Nat → Bool
  | .seq vs, seen => apartAll vs seen
  | .obj _ parts, seen => apartAll parts seen
  | .own t v, seen => C.subobject t v == 0 && apart v seen
  | .shared t a v, seen => C.toldApart t a v seen && (decide (a ∈ seen) || apart v seen)
  | _, _ => true

def apartAll : List Val → List Nat → Bool
  | [], _ => true
  | v :: vs, seen => apart v seen && apartAll vs (v.visit seen)

end

/-! ### The contract -/

variable (heap : Nat → Val) (ty : Nat → Ty)

structure Carried (p : Read Val) (v : Val) : Prop where
  writes : ∀ w, ∃ ts w', C.put v w = .ok (ts, w')
  reads : v.Coherent heap → ∀ seen w s ts w', C.Lockstep heap ty seen w s →
    C.put v w = .ok (ts, w') → C.apart v seen = true →
    ∃ s', Reads eof p s ts (v.rename fun a => (v.visit seen).idxOf a) s' ∧
      C.Lockstep heap ty (v.visit seen) w' s'

structure CarriedAll (ps : List (Read Val)) (vs : List Val) : Prop where
  writes : ∀ w, ∃ ts w', C.putAll vs w = .ok (ts, w')
  reads : (∀ v ∈ vs, v.Coherent heap) → ∀ seen w s ts w', C.Lockstep heap ty seen w s →
    C.putAll vs w = .ok (ts, w') → C.apartAll vs seen = true →
    ∃ s', Reads eof (each ps) s ts
        (vs.map (Val.rename fun a => (Val.visitAll vs seen).idxOf a)) s' ∧
      C.Lockstep heap ty (Val.visitAll vs seen) w' s'

variable {C heap ty}

/-- Values that are carried one by one are carried together. -/
theorem carriedAll {ps : List (Read Val)} {vs : List Val}
    (h : List.Forall₂ (C.Carried heap ty) ps vs) : C.CarriedAll heap ty ps vs := by
  induction h with
  | nil =>
    refine ⟨fun w => ⟨[], w, rfl⟩, ?_⟩
    intro _ seen w s ts w' hstep hput _
    cases hput
    exact ⟨s, Reads.pure [] s, hstep⟩
  | @cons p v ps vs hv _ ih =>
    constructor
    · intro w
      obtain ⟨ts, w₁, h1⟩ := hv.writes w
      obtain ⟨us, w₂, h2⟩ := ih.writes w₁
      exact ⟨ts ++ us, w₂, by simp [putAll, h1, h2, Except.bind, Except.map]⟩
    · intro hco seen w s cs w' hstep hput hap
      obtain ⟨hcv, hcvs⟩ := List.forall_mem_cons.mp hco
      obtain ⟨ts, w₁, h1⟩ := hv.writes w
      obtain ⟨us, w₂, h2⟩ := ih.writes w₁
      simp only [putAll, h1, h2, Except.bind, Except.map, Except.ok.injEq, Prod.mk.injEq] at hput
      obtain ⟨rfl, rfl⟩ := hput
      rw [apartAll, Bool.and_eq_true] at hap
      obtain ⟨s₁, hr, hstep₁⟩ := hv.reads hcv seen w s ts w₁ hstep h1 hap.1
      obtain ⟨s₂, hrs, hstep₂⟩ := ih.reads hcvs _ w₁ s₁ us w₂ hstep₁ h2 hap.2
      refine ⟨s₂, ?_, hstep₂⟩
      -- the first copy does not change when the others are completed
      have hnodes := (visits heap v hcv seen hstep.closed).1
      have hfirst := rename_idxOf_of_extends (visitAll_extends vs (v.visit seen)) hnodes
      simp only [Val.visitAll, List.map_cons, hfirst]
      exact Reads.bind hr (Reads.then_pure (_ :: ·) hrs)

/-- A value that is read from its own chunks and holds no pointers. -/
theorem Carried.scalar {p : Read Val} {v : Val} {ts : List Chunk}
    (hput : ∀ w, C.put v w = .ok (ts, w)) (hread : ∀ s, Reads eof p s ts v s)
    (hnodes : v.nodes = []) (hvisit : ∀ seen, v.visit seen = seen) : C.Carried heap ty p v where
  writes := fun w => ⟨ts, w, hput w⟩
  reads := by
    intro _ seen w s cs w' hstep hw _
    rw [hput, Except.ok.injEq, Prod.mk.injEq] at hw
    obtain ⟨rfl, rfl⟩ := hw
    rw [hvisit, Val.rename_of_nodes_nil hnodes]
    exact ⟨s, hread s, hstep⟩

/-- A header, then the components: the reader collects them with `m`, which for the components
read is the constructor of the value. -/
theorem Carried.node {ps : List (Read Val)} {vs : List Val} {con m : List Val → Val}
    {hdr : List Chunk} {α : Type} {hd : Read α} {a : α} {k : α → Read Val}
    (hcon : IsNode con) (hall : List.Forall₂ (C.Carried heap ty) ps vs)
    (hput : ∀ w, C.put (con vs) w = (C.putAll vs w).map fun (ts, w') => (hdr ++ ts, w'))
    (hhd : ∀ s, Reads eof hd s hdr a s) (hk : k a = (do let us ← each ps; pure (m us)))
    (hmk : ∀ us, us.map Val.erase = vs.map Val.erase → m us = con us) :
    C.Carried heap ty (hd >>= k) (con vs) where
  writes := by
    intro w
    obtain ⟨ts, w', h⟩ := (carriedAll hall).writes w
    exact ⟨hdr ++ ts, w', by rw [hput, h]; rfl⟩
  reads := by
    intro hco seen w s cs w' hstep hw hap
    rw [hput] at hw
    obtain ⟨⟨ts, w₁⟩, h1, hcs⟩ := Fallible.map_eq_ok.mp hw
    rw [Prod.mk.injEq] at hcs
    obtain ⟨rfl, rfl⟩ := hcs
    have hcoAll : ∀ v ∈ vs, v.Coherent heap := by
      cases hcon <;> exact coherent_of_mem (by simpa [Val.Coherent, Val.nodes] using hco)
    have hvisit : (con vs).visit seen = Val.visitAll vs seen := by cases hcon <;> rfl
    have hapAll : C.apartAll vs seen = true := by cases hcon <;> exact hap
    obtain ⟨s', hr, hstep'⟩ := (carriedAll hall).reads hcoAll seen w s ts w₁ hstep h1 hapAll
    rw [hvisit]
    refine ⟨s', ?_, hstep'⟩
    have hsame : (vs.map (Val.rename fun a => (Val.visitAll vs seen).idxOf a)).map Val.erase =
        vs.map Val.erase := by simp
    have hren : (con vs).rename (fun a => (Val.visitAll vs seen).idxOf a) =
        con (vs.map (Val.rename fun a => (Val.visitAll vs seen).idxOf a)) := by
      cases hcon <;> simp [Val.rename]
    have hthen := Reads.then_pure m hr
    rw [hmk _ hsame, ← hren] at hthen
    exact Reads.bind (hhd s) (by rw [hk]; exact hthen)

theorem forall₂_replicate {p : Read Val} {vs : List Val}
    (h : ∀ v ∈ vs, C.Carried heap ty p v) :
    List.Forall₂ (C.Carried heap ty) (List.replicate vs.length p) vs := by
  induction vs with
  | nil => exact .nil
  | cons v vs ih =>
    obtain ⟨hv, hvs⟩ := List.forall_mem_cons.mp h
    exact .cons hv (ih hvs)

/-- Components that are carried at every index. -/
theorem forall₂_map {p : Ty → Read Val} {tys : List Ty} {vs : List Val}
    (hlen : vs.length = tys.length)
    (h : ∀ (i : Nat) t v, tys[i]? = some t → vs[i]? = some v → C.Carried heap ty (p t) v) :
    List.Forall₂ (C.Carried heap ty) (tys.map p) vs := by
  refine List.forall₂_map_left_iff.mpr (List.forall₂_iff_get.mpr ⟨hlen.symm, ?_⟩)
  intro i hi hj
  exact h i _ _ (List.getElem?_eq_getElem hi) (List.getElem?_eq_getElem hj)

/-- Reading a container whose insertion puts every element where the original has it. -/
theorem Carried.container {p : Ty → Read Val} {t : Ty} {vs : List Val}
    {add : Val → List Val → List Val} (hlen : vs.length < 2 ^ 32)
    (hall : ∀ v ∈ vs, C.Carried heap ty (p t) v)
    (hadd : ∀ us : List Val, us.map Val.erase = vs.map Val.erase →
      us.foldl (fun acc v => add v acc) [] = us) :
    C.Carried heap ty (C.readContainer p add t) (.seq vs) := by
  refine Carried.node (m := fun us => .seq (us.foldl (fun acc v => add v acc) [])) .seq
    (forall₂_replicate hall) (fun w => rfl) (fun s => reads_readArrayHeader C.order hlen s) ?_ ?_
  · simp only [loop_eq_each, bind_assoc, pure_bind]
  · intro us hus
    simp only [hadd us hus]

/-! ### Pointers -/

theorem isA_of_holds {d : Ty} {v : Val} (h : Holds C ty d v) : IsA d v := by
  rintro c rfl
  cases h
  exact ⟨_, rfl⟩

theorem Points.dynamicTy_of_holds {t d : Ty} {v : Val} (hpt : C.Points t d) (h : Holds C ty d v) :
    v.dynamicTy t = d := by
  cases hpt with
  | registered => cases h; rfl
  | plain =>
    cases h with
    | enum hu => cases hu <;> rfl
    | _ => rfl

theorem Carried.null {p : Read Val} (hread : ∀ s, Reads eof p s C.writeNullPtr .null s) :
    C.Carried heap ty p .null :=
  .scalar (fun _ => rfl) hread rfl (fun _ => rfl)

theorem Carried.own {rec : Ty → Read Val} {t d : Ty} {v : Val} (hpt : C.Points t d)
    (hty : Holds C ty d v) (hrt : C.Carried heap ty (rec d) v) :
    C.Carried heap ty (C.readAsUniquePtr rec t) (.own t v) where
  writes := by
    intro w
    obtain ⟨ts, w', h⟩ := hrt.writes w
    exact ⟨_, w', by simp only [put, h, Except.map]; rfl⟩
  reads := by
    intro hco seen w s cs w' hstep hw hap
    obtain ⟨⟨ts, w₁⟩, h1, hcs⟩ := Fallible.map_eq_ok.mp hw
    rw [hpt.dynamicTy_of_holds hty, Prod.mk.injEq] at hcs
    obtain ⟨rfl, rfl⟩ := hcs
    simp only [apart, Bool.and_eq_true, beq_iff_eq] at hap
    obtain ⟨s', hr, hstep'⟩ := hrt.reads hco seen w s ts w₁ hstep h1 hap.2
    obtain ⟨c, us, hts, hc, -⟩ := put_code h1
    have hobject := reads_pointee hpt (isA_of_holds hty) hap.1 hr
    refine ⟨s', Reads.bind (reads_readTypeTag C (C.typeTag_inRange d) s) ?_, hstep'⟩
    rw [hts] at hobject ⊢
    refine Reads.peek ?_
    rw [if_neg hc]
    exact hobject.bind_pure rfl

section Shared

variable {t : Ty} {a : Nat} {v : Val} {seen : List Nat} {w : SavedTags} {s : SavedPtrs}

/-- What is written for an object completed before. -/
theorem put_seen (hd : C.dedupSharedPtrs = true) (hstep : C.Lockstep heap ty seen w s)
    (hoff : C.subobject t v = 0) (ha : a ∈ seen) : C.put (.shared t a v) w =
      .ok (C.writeTypeTag (C.typeTag (ty a)) ++ putUnsigned C.order (seen.idxOf a), w) := by
  rw [put, if_pos hd, hoff, hstep.find_of_mem ha]

/-- What is written for any other pointer. -/
theorem put_new (hd : C.dedupSharedPtrs = true) (hpt : C.Points t (ty a)) (hty : Holds C ty (ty a) v)
    (hfind : w.find (a, C.subobject t v) = none) : C.put (.shared t a v) w =
      (C.put v w).map fun (ts, w') => (C.writeTypeTag (C.typeTag (ty a)) ++ ts,
        w'.save (a, C.subobject t v) (C.typeTag (ty a))) := by
  rw [put, if_pos hd, hfind, hpt.dynamicTy_of_holds hty]

/-- An object is not among those completed while it is streamed itself. -/
theorem not_mem_visit (hco : (Val.shared t a v).Coherent heap) (ha : a ∉ seen) :
    a ∉ v.visit seen := by
  intro hmem
  have hcv : v.Coherent heap := fun n hn => hco n (by simp [Val.nodes, hn])
  have hv : heap a = v := hco (a, v) (by simp [Val.nodes])
  rcases mem_visit hmem with hmem | ⟨n, hn, hna⟩
  · exact ha hmem
  · exact hcv.not_mem_self hv n hn hna

theorem lockstep_allocate (hd : C.dedupSharedPtrs = true) (hpt : C.Points t (ty a))
    (hty : Holds C ty (ty a) v) (hv : heap a = v) (hlt : a < 2 ^ 64)
    (hstep : C.Lockstep heap ty seen w s) (ha : a ∉ seen) (hnodes : ∀ n ∈ v.nodes, n.1 ∈ seen) :
    C.Lockstep heap ty (seen ++ [a]) (w.save (a, 0) (C.typeTag (ty a)))
      (C.allocate t (v.rename fun b => seen.idxOf b) s) := by
  have hsave := hstep.save ha hlt (by rwa [hv])
  rw [hv] at hsave
  rwa [allocate, if_pos hd, hpt.typeidOf_eq (isA_rename (isA_of_holds hty) _)]

theorem Carried.shared {fuel : Nat} (hd : C.dedupSharedPtrs = true) (hpt : C.Points t (ty a))
    (hlt : a < 2 ^ 64) (hty : Holds C ty (ty a) v)
    (hrt : C.Carried heap ty (C.readAs fuel (ty a)) v) :
    C.Carried heap ty (C.readAsSharedPtr (C.readAs fuel) t) (.shared t a v) where
  writes := by
    intro w
    obtain ⟨ts, w', h1⟩ := hrt.writes w
    simp only [put, h1, Except.map]
    split_ifs
    split
    · exact ⟨_, _, rfl⟩
    · exact ⟨_, _, rfl⟩
  reads := by
    intro hco seen w s cs w' hstep hw hap
    have hcv : v.Coherent heap := fun n hn => hco n (by simp [Val.nodes, hn])
    have hv : heap a = v := hco (a, v) (by simp [Val.nodes])
    simp only [apart, toldApart, Bool.and_eq_true, beq_iff_eq] at hap
    obtain ⟨⟨hoff, htold⟩, hin⟩ := hap
    by_cases ha : a ∈ seen
    · -- the object is completed: only its number is written
      rw [put_seen hd hstep hoff ha, Except.ok.injEq, Prod.mk.injEq] at hw
      obtain ⟨rfl, rfl⟩ := hw
      rw [if_pos ha] at htold
      have hlen := hstep.length_le
      have hidx : seen.idxOf a < seen.length := List.idxOf_lt_length_of_mem ha
      have hcode : StartsWith (CodeOf true) (putUnsigned C.order (seen.idxOf a)) :=
        (putUnsigned_code C.order).imp fun c hc => ⟨hc.1, by rw [hc.2.1, htold]⟩
      have hsaved := hstep.saved_of_mem ha
      rw [hv] at hsaved
      have hvisit : (Val.shared t a v).visit seen = seen := by simp [Val.visit, ha]
      rw [hvisit]
      refine ⟨s, reads_savedObject hcode ?_, hstep⟩
      exact reads_getSavedPtr hpt (isA_of_holds hty) hoff hd (by omega)
        (isA_rename (isA_of_holds hty) _) hsaved
    · -- the object is new: it is written and then saved
      have hfind : w.find (a, C.subobject t v) = none := by
        rw [hoff]
        exact hstep.find_of_not_mem ha
      rw [put_new hd hpt hty hfind, hoff] at hw
      obtain ⟨⟨ts, w₁⟩, h1, hcs⟩ := Fallible.map_eq_ok.mp hw
      rw [Prod.mk.injEq] at hcs
      obtain ⟨rfl, rfl⟩ := hcs
      simp only [ha, if_false, Bool.not_eq_true', decide_false, Bool.false_or] at htold hin
      obtain ⟨s', hr, hstep'⟩ := hrt.reads hcv seen w s ts w₁ hstep h1 hin
      have hcode : StartsWith (CodeOf false) ts := by
        rw [← htold]
        exact put_code h1
      have hnew : a ∉ v.visit seen := not_mem_visit hco ha
      have hnodes := (visits heap v hcv seen hstep.closed).1
      have hvisit : (Val.shared t a v).visit seen = v.visit seen ++ [a] := by simp [Val.visit, ha]
      have hcopy : (Val.shared t a v).rename (fun b => (v.visit seen ++ [a]).idxOf b) =
          .shared t s'.next (v.rename fun b => (v.visit seen).idxOf b) := by
        rw [Val.rename, rename_idxOf_of_extends (List.prefix_append _ _) hnodes, hstep'.ptrsNext,
          List.idxOf_append_of_notMem hnew]
        simp
      rw [hvisit, hcopy]
      exact ⟨_, reads_newObject hcode (reads_pointee hpt (isA_of_holds hty) hoff hr),
        lockstep_allocate hd hpt hty hv hlt hstep' hnew hnodes⟩

end Shared

/-! ### The whole format -/

theorem carried_underlying {u : Underlying} {v : Val} (h : HasUnderlying u v) :
    C.Carried heap ty (readUnderlying C.order u) v := by
  cases h with
  | bool b =>
    exact .scalar (fun _ => rfl) (fun s => Reads.then_pure Val.bool (reads_getBool b s)) rfl
      (fun _ => rfl)
  | @int sg w i hi =>
    exact .scalar (fun _ => rfl) (fun s => Reads.then_pure (Val.int sg w) (reads_getInt C.order hi s))
      rfl (fun _ => rfl)

/-- With deduplication every well-typed value is carried, given fuel for its depth. -/
theorem carried (hd : C.dedupSharedPtrs = true) {t : Ty} {v : Val} (h : Holds C ty t v)
    (heap : Nat → Val) : ∀ fuel, v.depth ≤ fuel → C.Carried heap ty (C.readAs fuel t) v := by
  induction h with
  | bool b =>
    rintro (_ | fuel) hf
    · simp [Val.depth] at hf
    · exact .scalar (fun _ => rfl) (fun s => Reads.then_pure Val.bool (reads_getBool b s)) rfl
        (fun _ => rfl)
  | @int sg w i hi =>
    rintro (_ | fuel) hf
    · simp [Val.depth] at hf
    · exact .scalar (fun _ => rfl)
        (fun s => Reads.then_pure (Val.int sg w) (reads_getInt C.order hi s)) rfl (fun _ => rfl)
  | @enum u v hu =>
    rintro (_ | fuel) hf
    · cases hu <;> simp [Val.depth] at hf
    · exact carried_underlying hu
  | @float n hn =>
    rintro (_ | fuel) hf
    · simp [Val.depth] at hf
    · exact .scalar (fun _ => rfl) (fun s => Reads.then_pure Val.float (reads_getFloat C.order hn s))
        rfl (fun _ => rfl)
  | @double n hn =>
    rintro (_ | fuel) hf
    · simp [Val.depth] at hf
    · exact .scalar (fun _ => rfl)
        (fun s => Reads.then_pure Val.double (reads_getDouble C.widen C.order hn s)) rfl
        (fun _ => rfl)
  | @string bs hn =>
    rintro (_ | fuel) hf
    · simp [Val.depth] at hf
    · obtain ⟨ts, hput, -⟩ := reads_getString C.order hn (σ := SavedPtrs) {}
      have hw : ∀ w, C.put (.string bs) w = .ok (ts, w) := by simp [put, hput, Except.map]
      refine .scalar hw ?_ rfl (fun _ => rfl)
      intro s
      obtain ⟨us, hput', hread⟩ := reads_getString C.order hn s
      rw [hput] at hput'
      cases hput'
      exact Reads.then_pure Val.string hread
  | @buffer bs hn =>
    rintro (_ | fuel) hf
    · simp [Val.depth] at hf
    · exact .scalar (fun _ => rfl)
        (fun s => Reads.then_pure Val.buffer (reads_readBlob C.order hn s)) rfl (fun _ => rfl)
  | @pair a b x y _ _ ihx ihy =>
    rintro (_ | fuel) hf
    · simp [Val.depth] at hf
    · simp only [Val.depth, Val.depthList] at hf
      exact .node .seq (.cons (ihx fuel (by omega)) (.cons (ihy fuel (by omega)) .nil))
        (fun w => rfl) (fun s => reads_checkArrayHeader C.order (by decide) s) (each_pair _ _)
        (fun _ _ => rfl)
  | @tuple ts vs hts hlen _ ih =>
    rintro (_ | fuel) hf
    · simp [Val.depth] at hf
    · simp only [Val.depth] at hf
      refine .node .seq (forall₂_map hlen ?_) (fun w => by rw [put, hlen])
        (fun s => reads_checkArrayHeader C.order hts s) rfl (fun _ _ => rfl)
      intro i t v ht hv
      have := Val.depth_le_of_mem (List.mem_of_getElem? hv)
      exact ih i t v ht hv fuel (by omega)
  | @seq k t vs hlen _ ih =>
    rintro (_ | fuel) hf
    · simp [Val.depth] at hf
    · simp only [Val.depth] at hf
      refine .container hlen ?_ ?_
      · intro v hv
        have := Val.depth_le_of_mem hv
        exact ih v hv fuel (by omega)
      · intro us _
        simpa using foldl_concat us []
  | @set k t vs hlen _ hsorted ih =>
    rintro (_ | fuel) hf
    · simp [Val.depth] at hf
    · simp only [Val.depth] at hf
      refine .container hlen ?_ ?_
      · intro v hv
        have := Val.depth_le_of_mem hv
        exact ih v hv fuel (by omega)
      · intro us hus
        exact foldl_emplace_of_erase (show ∀ v : Val, id v.erase = (id v).erase from fun _ => rfl)
          hsorted hus
  | @map k kt vt vs hlen _ hsorted ih =>
    rintro (_ | fuel) hf
    · simp [Val.depth] at hf
    · simp only [Val.depth] at hf
      refine .container hlen ?_ ?_
      · intro v hv
        have := Val.depth_le_of_mem hv
        exact ih v hv fuel (by omega)
      · intro us hus
        exact foldl_emplace_of_erase erase_first hsorted hus
  | @cls c vs hlen _ ih =>
    rintro (_ | fuel) hf
    · simp [Val.depth] at hf
    · simp only [Val.depth] at hf
      refine .node (.obj c) (forall₂_map (by simpa using hlen) ?_) (fun w => rfl)
        (fun s => reads_readArrayHeader C.order (C.count_lt c) s) (if_pos rfl) (fun _ _ => rfl)
      intro i t v ht hv
      have := Val.depth_le_of_mem (List.mem_of_getElem? hv)
      exact ih i t v ht hv fuel (by omega)
  | nullUnique t =>
    rintro (_ | fuel) hf
    · simp [Val.depth] at hf
    · exact .null fun s => reads_null s (if_pos rfl)
  | nullShared t =>
    rintro (_ | fuel) hf
    · simp [Val.depth] at hf
    · exact .null fun s => reads_null s (if_pos rfl)
  | @own t d v hpt hty ih =>
    rintro (_ | fuel) hf
    · simp [Val.depth] at hf
    · simp only [Val.depth] at hf
      exact .own hpt hty (ih fuel (by omega))
  | @shared t a v hpt hlt hty ih =>
    rintro (_ | fuel) hf
    · simp [Val.depth] at hf
    · simp only [Val.depth] at hf
      exact .shared hd hpt hlt hty (ih fuel (by omega))

theorem carriedAll_of_holds (hd : C.dedupSharedPtrs = true) {tys : List Ty} {vs : List Val}
    (hvs : List.Forall₂ (Holds C ty) tys vs) (heap : Nat → Val) {fuel : Nat}
    (hf : Val.depthList vs ≤ fuel) : C.CarriedAll heap ty (tys.map (C.readAs fuel)) vs := by
  refine carriedAll (List.forall₂_map_left_iff.mpr ?_)
  refine List.forall₂_iff_get.mpr ⟨hvs.length_eq, ?_⟩
  intro i hi hj
  have hdepth := Val.depth_le_of_mem (List.getElem_mem hj)
  exact carried hd (hvs.get hi hj) heap fuel (hdepth.trans hf)

end Context

end Nodeoze.Bstream
