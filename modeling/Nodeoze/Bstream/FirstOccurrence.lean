import Nodeoze.Bstream.SharedObjects

/-!
# First occurrences and back references

A pointer at an object not streamed before has to come back as a pointer at a new object, one at
an object streamed before as a pointer at the object that came back then.  `recovers_iff` is the
exact extent to which this is so.
-/

namespace Nodeoze.Bstream

open Reader

/-! ### Reading never takes an address back -/

namespace Context

variable {C : Context} {rec : Ty → Read Val}

theorem grows_readTypeTag : Grows SavedPtrs.next C.readTypeTag :=
  ((leaf_readArrayHeader C.order).grows _).bind fun _ => .ite ((leaf_getInt C.order true .w32).grows _) (.throw _)

theorem grows_deserializePointee (hrec : ∀ t, Grows SavedPtrs.next (rec t)) (t : Ty) (tag : Int) :
    Grows SavedPtrs.next (C.deserializePointee rec t tag) := by
  unfold deserializePointee create
  split_ifs
  · exact .throw _
  · exact (hrec t).bind fun v => .pure _
  · split
    · exact .ite (.ite (.pure _) ((hrec _).bind fun v => .ite (.pure _) (.throw _))) (.throw _)
    · exact .throw _

/-- What `deserialize_as_shared_ptr` makes is an object that was not there before, or, of an abstract
class, a null pointer. -/
theorem deserializeAsSharedPtr_ok (hrec : ∀ t, Grows SavedPtrs.next (rec t)) {t : Ty} {tag : Int}
    {junk : Nat → Nat → UInt8} {st st' : Input SavedPtrs} {x : Val}
    (h : C.deserializeAsSharedPtr rec t tag junk st = .ok (x, st')) :
    st.user.next ≤ st'.user.next ∧
      ((∃ n v', x = .shared t n v' ∧ st.user.next ≤ n) ∨ x = .null) := by
  unfold deserializeAsSharedPtr at h
  cases hrun : C.deserializePointee rec t tag junk st with
  | error e =>
    rw [bind_error hrun] at h
    cases h
  | ok y =>
    obtain ⟨object, st₁⟩ := y
    have hgrows := grows_deserializePointee hrec t tag junk st object st₁ hrun
    rw [bind_ok hrun, bind_ok (show getUser junk st₁ = .ok (st₁.user, st₁) from rfl)] at h
    cases object with
    | none =>
      dsimp only at h
      split_ifs at h
      · cases h
      · cases h
        exact ⟨hgrows, .inr rfl⟩
      · cases h
        exact ⟨hgrows, .inr rfl⟩
    | some v =>
      cases h
      exact ⟨hgrows.trans (Nat.le_succ _), .inl ⟨_, v, rfl, hgrows⟩⟩

theorem grows_getSavedPtr (t : Ty) (tag : Int) : Grows SavedPtrs.next (C.getSavedPtr t tag) := by
  unfold getSavedPtr
  refine .ite (((leaf_getInt C.order false .w64).grows _).bind fun index => Grows.getUser.bind fun s => ?_)
    (.throw _)
  split
  · exact .throw _
  · refine .ite (.ite ?_ (.throw _)) (.ite (.pure _) (.throw _))
    split
    · exact .ite (.ite (.pure _) (.throw _)) (.throw _)
    · exact .throw _

theorem grows_readAsSharedPtr (hrec : ∀ t, Grows SavedPtrs.next (rec t)) (t : Ty) :
    Grows SavedPtrs.next (C.readAsSharedPtr rec t) := by
  refine grows_readTypeTag.bind fun tag => Grows.peek.bind fun code => ?_
  refine .ite (Grows.get.bind fun _ => .pure _) (.ite (grows_getSavedPtr t tag) ?_)
  intro junk st x st' h
  exact (deserializeAsSharedPtr_ok hrec h).1

theorem grows_readAsUniquePtr (hrec : ∀ t, Grows SavedPtrs.next (rec t)) (t : Ty) :
    Grows SavedPtrs.next (C.readAsUniquePtr rec t) := by
  refine grows_readTypeTag.bind fun tag => Grows.peek.bind fun code => ?_
  refine .ite (Grows.get.bind fun _ => .pure _) ((grows_deserializePointee hrec t tag).bind ?_)
  rintro (_ | v)
  · exact .pure _
  · exact .pure _

theorem grows_readContainer (hrec : ∀ t, Grows SavedPtrs.next (rec t))
    (add : Val → List Val → List Val) (t : Ty) : Grows SavedPtrs.next (C.readContainer rec add t) := by
  have hstep : ∀ acc, Grows SavedPtrs.next (do let v ← rec t; pure (add v acc)) :=
    fun acc => (hrec t).bind fun v => .pure _
  exact ((leaf_readArrayHeader C.order).grows _).bind fun n => (Grows.loop hstep n []).bind fun vs => .pure _

/-- The reader of every type hands out addresses in increasing order. -/
theorem grows_readAs (fuel : Nat) (t : Ty) : Grows SavedPtrs.next (C.readAs fuel t) := by
  induction fuel generalizing t with
  | zero => exact .throw _
  | succ fuel ih =>
    cases t with
    | bool => exact (leaf_getBool.grows _).bind fun _ => .pure _
    | int sg w => exact ((leaf_getInt C.order sg w).grows _).bind fun _ => .pure _
    | enum u =>
      cases u with
      | bool => exact (leaf_getBool.grows _).bind fun _ => .pure _
      | int sg w => exact ((leaf_getInt C.order sg w).grows _).bind fun _ => .pure _
    | float => exact ((leaf_getFloat C.order).grows _).bind fun _ => .pure _
    | double => exact ((leaf_getDouble C.order C.widen).grows _).bind fun _ => .pure _
    | string => exact ((leaf_getString C.order).grows _).bind fun _ => .pure _
    | buffer => exact ((leaf_readBlob C.order).grows _).bind fun _ => .pure _
    | pair a b =>
      exact ((leaf_checkArrayHeader C.order 2).grows _).bind fun _ =>
        (ih a).bind fun _ => (ih b).bind fun _ => .pure _
    | tuple ts =>
      refine ((leaf_checkArrayHeader C.order ts.length).grows _).bind fun _ => Grows.bind ?_ fun _ => .pure _
      exact .each (List.forall_mem_map.mpr fun t _ => ih t)
    | seq k t => exact grows_readContainer ih _ t
    | set k t => exact grows_readContainer ih _ t
    | map k kt vt => exact grows_readContainer ih _ (.pair kt vt)
    | cls c =>
      refine ((leaf_readArrayHeader C.order).grows _).bind fun _ => .ite (Grows.bind ?_ fun _ => .pure _) (.throw _)
      exact .each (List.forall_mem_map.mpr fun t _ => ih t)
    | uniquePtr t => exact grows_readAsUniquePtr ih t
    | sharedPtr t => exact grows_readAsSharedPtr ih t

/-! ### What a pointer comes back as -/

/-- `x` is what a pointer of type `t` at the object `v` at address `a` has to come back as, when the
objects in `seen` have come back under their numbers and the reader is in state `s`: the object
that came back for `a`, if there is one, and otherwise one at an address not handed out so far. -/
def Recovers (seen : List Nat) (s : SavedPtrs) (t : Ty) (a : Nat) (v x : Val) : Prop :=
  ∃ n v', x = .shared t n v' ∧ v'.erase = v.erase ∧ if a ∈ seen then n = seen.idxOf a else s.next ≤ n

/-- The second code decides which way the reader of a pointer goes. -/
theorem readAsSharedPtr_run (C : Context) (rec : Ty → Read Val) {ts : List Chunk} {positive : Bool}
    (hts : StartsWith (CodeOf positive) ts) (t d : Ty) (junk : Nat → Nat → UInt8) (pos : Nat)
    (r : List UInt8) (n : Nat) (s : SavedPtrs) :
    C.readAsSharedPtr rec t junk ⟨pos, bytes (C.writeTypeTag (C.typeTag d) ++ ts) ++ r, n, s⟩ =
      (if positive then C.getSavedPtr t (C.typeTag d)
        else C.deserializeAsSharedPtr rec t (C.typeTag d)) junk
        ⟨pos + (bytes (C.writeTypeTag (C.typeTag d))).length, bytes ts ++ r, n, s⟩ := by
  obtain ⟨c, us, rfl, hnil, hpos⟩ := hts
  have htag := (reads_readTypeTag C (C.typeTag_inRange d) s).full junk pos
    (bytes (.byte c :: us) ++ r) n
  rw [bytes_append, List.append_assoc]
  unfold readAsSharedPtr
  rw [bind_ok htag]
  refine (bind_ok rfl).trans ?_
  rw [if_neg hnil, hpos]

section

variable {heap : Nat → Val} {ty : Nat → Ty} {seen : List Nat} {w : SavedTags} {s : SavedPtrs}

theorem Lockstep.address_lt (h : C.Lockstep heap ty seen w s) {k n : Nat} {d : Ty} {v : Val}
    (hsaved : s.saved[k]? = some (d, n, v)) : n < s.next := by
  rw [h.ptrs, List.getElem?_mapIdx, Option.map_eq_some_iff] at hsaved
  obtain ⟨a, ha, hentry⟩ := hsaved
  obtain ⟨hk, -⟩ := List.getElem?_eq_some_iff.mp ha
  have hn : k = n := congrArg (fun e => e.2.1) hentry
  rw [h.ptrsNext, ← hn]
  exact hk

/-- Such a number is written as its own digits. -/
theorem put_numbered {d : Ty} {v : Val} {w' : SavedTags} {ts : List Chunk} (hty : Holds C ty d v)
    (hnum : numbered v = true) (hput : C.put v w = .ok (ts, w')) :
    ∃ k, k < 2 ^ 64 ∧ ts = putUnsigned C.order k := by
  obtain ⟨sg, wd, i, rfl, hrange⟩ : ∃ sg wd i, v = .int sg wd i ∧ InRange sg wd i := by
    cases hty with
    | int h => exact ⟨_, _, _, rfl, h⟩
    | enum hu =>
      cases hu with
      | bool b => cases hnum
      | int h => exact ⟨_, _, _, rfl, h⟩
    | _ => cases hnum
  have hsize : (256 ^ wd.size : Nat) ≤ 2 ^ 64 := by cases wd <;> decide
  simp only [numbered, Bool.and_eq_true, Bool.or_eq_true, Bool.not_eq_true', decide_eq_true_eq] at hnum
  refine ⟨i.toNat, ?_, ?_⟩
  · cases sg <;> simp only [InRange, if_true, Bool.false_eq_true, if_false] at hrange <;> omega
  · cases hput
    rcases hnum.1 with rfl | hi
    · rfl
    · cases sg <;> simp [putInt, putSigned, hi]

/-- An object that `get_saved_ptr` finds was there before. -/
theorem getSavedPtr_old (hstep : C.Lockstep heap ty seen w s) {t : Ty} {tag : Int} {k : Nat}
    (hk : k < 2 ^ 64) {junk : Nat → Nat → UInt8} {pos : Nat} {r : List UInt8} {n : Nat}
    {x : Val} {st' : Input SavedPtrs}
    (h : C.getSavedPtr t tag junk ⟨pos, bytes (putUnsigned C.order k) ++ r, n, s⟩ = .ok (x, st')) :
    x = .null ∨ ∃ m v', x = .shared t m v' ∧ m < s.next := by
  have hidx : InRange false .w64 (k : Int) := by
    simp only [InRange, Bool.false_eq_true, if_false, Width.size]
    omega
  have hint : Reads eof (getInt C.order false .w64) s (putUnsigned C.order k) (k : Int) s :=
    reads_getInt C.order hidx s
  unfold getSavedPtr at h
  by_cases hd : C.dedupSharedPtrs = true
  · rw [if_pos hd, bind_ok (hint.full junk pos r n),
      bind_ok (show getUser junk _ = .ok (s, _) from rfl)] at h
    simp only [Int.toNat_natCast] at h
    cases hsaved : s.saved[k]? with
    | none =>
      rw [hsaved] at h
      cases h
    | some e =>
      obtain ⟨savedTy, m, v'⟩ := e
      have hlt := hstep.address_lt hsaved
      simp only [hsaved] at h
      have hx : x = savedPtr t savedTy m v' := by
        refine (?_ : Yields (· = savedPtr t savedTy m v') _) _ _ _ _ h
        refine .ite (.ite ?_ (.throw _)) (.ite (.pure rfl) (.throw _))
        split
        · exact .ite (.ite (.pure rfl) (.throw _)) (.throw _)
        · exact .throw _
      unfold savedPtr at hx
      split_ifs at hx
      · exact .inl hx
      · exact .inr ⟨m, v', hx, hlt⟩
  · rw [if_neg hd] at h
    cases h

variable {t : Ty} {a : Nat} {v : Val} {us : List Chunk} {w' : SavedTags} {fuel : Nat}

/-- Reading the chunks `us` of the pointer, whatever follows them, recovers it and leaves the reader
right behind them. -/
def ReadsRight (C : Context) (fuel : Nat) (seen : List Nat) (s : SavedPtrs) (us : List Chunk) (t : Ty)
    (a : Nat) (v : Val) : Prop :=
  ∀ junk pos r n, ∃ x s', C.readAs fuel (.sharedPtr t) junk ⟨pos, bytes us ++ r, n, s⟩ =
    .ok (x, ⟨pos + (bytes us).length, r, n, s'⟩) ∧ Recovers seen s t a v x

/-- A pointer that the reader can tell apart comes back. -/
theorem readsRight_of_toldApart (hd : C.dedupSharedPtrs = true)
    (hp : Holds C ty (.sharedPtr t) (.shared t a v)) (hco : (Val.shared t a v).Coherent heap)
    (hstep : C.Lockstep heap ty seen w s) (hin : a ∉ seen → C.apart v seen = true)
    (hput : C.put (.shared t a v) w = .ok (us, w')) (hf : (Val.shared t a v).depth ≤ fuel)
    (htold : C.toldApart t a v seen = true) : C.ReadsRight fuel seen s us t a v := by
  have hap : C.apart (.shared t a v) seen = true := by
    rw [apart, htold, Bool.true_and, Bool.or_eq_true, decide_eq_true_eq]
    by_cases ha : a ∈ seen
    · exact .inl ha
    · exact .inr (hin ha)
  obtain ⟨s', hr, hstep'⟩ :=
    (carried hd hp heap fuel hf).reads hco seen w s us w' hstep hput hap
  intro junk pos r n
  refine ⟨_, s', hr.full junk pos r n, _, _, rfl, Val.erase_rename _ v, ?_⟩
  by_cases ha : a ∈ seen
  · rw [if_pos ha]
    simp [Val.visit, ha]
  · rw [if_neg ha]
    have hnew : a ∉ v.visit seen := not_mem_visit hco ha
    have hle : seen.length ≤ (v.visit seen).length := (visit_extends v seen).length_le
    simp only [Val.visit, ha, if_false, List.idxOf_append_of_notMem hnew, hstep.ptrsNext]
    omega

/-- A pointer into the middle of its object is written in full, and refused. -/
theorem not_readsRight_of_subobject (hd : C.dedupSharedPtrs = true)
    (hp : Holds C ty (.sharedPtr t) (.shared t a v)) (hstep : C.Lockstep heap ty seen w s)
    (hput : C.put (.shared t a v) w = .ok (us, w')) (hoff : C.subobject t v ≠ 0) :
    ¬ C.ReadsRight (fuel + 1) seen s us t a v := by
  obtain ⟨hpt, -, hty⟩ : C.Points t (ty a) ∧ a < 2 ^ 64 ∧ Holds C ty (ty a) v := by
    cases hp with
    | shared hpt hlt hty => exact ⟨hpt, hlt, hty⟩
  rw [put_new hd hpt hty (hstep.find_of_offset a hoff)] at hput
  obtain ⟨⟨ts, w₁⟩, h1, hcs⟩ := Fallible.map_eq_ok.mp hput
  rw [Prod.mk.injEq] at hcs
  obtain ⟨rfl, -⟩ := hcs
  have hcode : StartsWith (CodeOf false) ts := by
    have hnum : numbered v = false := by
      cases v with
      | int sg wd i =>
        refine absurd ?_ hoff
        cases t <;> rfl
      | _ => rfl
    rw [← hnum]
    exact put_code h1
  intro hright
  obtain ⟨x, s', hok, -⟩ := hright (fun _ _ => 0) 0 [] 0
  have hrun : C.readAs (fuel + 1) (.sharedPtr t) = C.readAsSharedPtr (C.readAs fuel) t := rfl
  have hfails : Fails (C.readAsSharedPtr (C.readAs fuel) t) s
      (C.writeTypeTag (C.typeTag (ty a)) ++ ts) :=
    fails_newObject hcode (fails_pointee_of_subobject hpt (isA_of_holds hty) hoff)
  obtain ⟨e, herr⟩ := hfails (fun _ _ => 0) 0 [] 0
  rw [hrun, herr] at hok
  cases hok

/-- The number of an object completed before that is written with 32 bits is taken for a new one. -/
theorem not_readsRight_of_misread (hd : C.dedupSharedPtrs = true)
    (hstep : C.Lockstep heap ty seen w s) (hput : C.put (.shared t a v) w = .ok (us, w'))
    (hoff : C.subobject t v = 0) (ha : a ∈ seen) (hm : misread (seen.idxOf a) = true) :
    ¬ C.ReadsRight (fuel + 1) seen s us t a v := by
  rw [put_seen hd hstep hoff ha, Except.ok.injEq, Prod.mk.injEq] at hput
  obtain ⟨rfl, -⟩ := hput
  have hcode : StartsWith (CodeOf false) (putUnsigned C.order (seen.idxOf a)) :=
    (putUnsigned_code C.order).imp fun c hc => ⟨hc.1, by rw [hc.2.1, hm]; rfl⟩
  intro hright
  obtain ⟨x, s', hok, n, v', rfl, -, hn⟩ := hright (fun _ _ => 0) 0 [] 0
  have hrun : C.readAs (fuel + 1) (.sharedPtr t) = C.readAsSharedPtr (C.readAs fuel) t := rfl
  rw [hrun, readAsSharedPtr_run C _ hcode] at hok
  obtain ⟨-, ⟨m, v'', hx, hle⟩ | hno⟩ := deserializeAsSharedPtr_ok (grows_readAs fuel) hok
  · rw [if_pos ha] at hn
    have hidx : seen.idxOf a < seen.length := List.idxOf_lt_length_of_mem ha
    have hnext := hstep.ptrsNext
    cases hx
    simp only at hle
    omega
  · cases hno

/-- A number that is not written with 32 bits, streamed for the first time, is taken for that of an
object completed before. -/
theorem not_readsRight_of_numbered (hd : C.dedupSharedPtrs = true)
    (hp : Holds C ty (.sharedPtr t) (.shared t a v)) (hstep : C.Lockstep heap ty seen w s)
    (hput : C.put (.shared t a v) w = .ok (us, w')) (hoff : C.subobject t v = 0) (ha : a ∉ seen)
    (hnum : numbered v = true) : ¬ C.ReadsRight (fuel + 1) seen s us t a v := by
  obtain ⟨hpt, -, hty⟩ : C.Points t (ty a) ∧ a < 2 ^ 64 ∧ Holds C ty (ty a) v := by
    cases hp with
    | shared hpt hlt hty => exact ⟨hpt, hlt, hty⟩
  have hfind : w.find (a, C.subobject t v) = none := by
    rw [hoff]
    exact hstep.find_of_not_mem ha
  rw [put_new hd hpt hty hfind] at hput
  obtain ⟨⟨ts, w₁⟩, h1, hcs⟩ := Fallible.map_eq_ok.mp hput
  rw [Prod.mk.injEq] at hcs
  obtain ⟨rfl, -⟩ := hcs
  have hcode : StartsWith (CodeOf true) ts := by
    rw [← hnum]
    exact put_code h1
  obtain ⟨k, hk, rfl⟩ : ∃ k, k < 2 ^ 64 ∧ ts = putUnsigned C.order k := by
    exact put_numbered hty hnum h1
  intro hright
  obtain ⟨x, s', hok, n, v', rfl, -, hn⟩ := hright (fun _ _ => 0) 0 [] 0
  have hrun : C.readAs (fuel + 1) (.sharedPtr t) = C.readAsSharedPtr (C.readAs fuel) t := rfl
  rw [hrun, readAsSharedPtr_run C _ hcode] at hok
  rcases getSavedPtr_old hstep hk hok with hno | ⟨m, v'', hx, hlt⟩
  · cases hno
  · rw [if_neg ha] at hn
    cases hx
    omega

end

/-- On a stream whose pointers have all come back right so far, the next one comes back right, new
object or earlier object, exactly if the reader can tell it apart: it points at the start of its
object, and if the object is new it is not a number written without 32 bits, and if it is not, its
own number is. -/
theorem recovers_iff (hd : C.dedupSharedPtrs = true) {heap : Nat → Val} {ty : Nat → Ty}
    {tys : List Ty} {vs : List Val} (hvs : List.Forall₂ (Holds C ty) tys vs)
    (hcovs : ∀ x ∈ vs, x.Coherent heap) (hapart : C.apartAll vs [] = true) {t : Ty} {a : Nat} {v : Val}
    (hp : Holds C ty (.sharedPtr t) (.shared t a v)) (hco : (Val.shared t a v).Coherent heap)
    (hin : a ∉ Val.visitAll vs [] → C.apart v (Val.visitAll vs []) = true) :
    ∃ cs w us w', C.putAll vs {} = .ok (cs, w) ∧ C.put (.shared t a v) w = .ok (us, w') ∧
      ∀ fuel, Val.depthList (.shared t a v :: vs) ≤ fuel → ∃ s,
        Reads eof (each (tys.map (C.readAs fuel))) {} cs
          (vs.map (Val.rename fun b => (Val.visitAll vs []).idxOf b)) s ∧
        (C.ReadsRight fuel (Val.visitAll vs []) s us t a v ↔
          C.toldApart t a v (Val.visitAll vs []) = true) := by
  obtain ⟨cs, w, hputs⟩ := (carriedAll_of_holds hd hvs heap le_rfl).writes {}
  obtain ⟨us, w', hput⟩ := (carried hd hp heap _ le_rfl).writes w
  refine ⟨cs, w, us, w', hputs, hput, ?_⟩
  intro fuel hf
  simp only [Val.depthList, Nat.max_le] at hf
  obtain ⟨s, hreads, hstep⟩ := (carriedAll_of_holds hd hvs heap hf.2).reads hcovs [] {} {} cs w
    (C.lockstep_init heap ty) hputs hapart
  refine ⟨s, hreads, ?_, readsRight_of_toldApart hd hp hco hstep hin hput hf.1⟩
  obtain ⟨k, rfl⟩ : ∃ k, fuel = k + 1 := ⟨fuel - 1, by simp only [Val.depth] at hf; omega⟩
  contrapose
  intro htold
  by_cases hoff : C.subobject t v = 0
  · rw [toldApart, hoff, beq_self_eq_true, Bool.true_and] at htold
    by_cases ha : a ∈ Val.visitAll vs []
    · rw [if_pos ha] at htold
      exact not_readsRight_of_misread hd hstep hput hoff ha (by simpa using htold)
    · rw [if_neg ha] at htold
      exact not_readsRight_of_numbered hd hp hstep hput hoff ha (by simpa using htold)
  · exact not_readsRight_of_subobject hd hp hstep hput hoff

/-- A pointer at a string. -/
def greeting : Val := .shared .string 0 (.string [0x68, 0x69])

theorem holds_greeting :
    Holds starContext (fun _ => .string) (.sharedPtr .string) greeting :=
  .shared (.plain rfl rfl) (by decide) (.string (by decide))

theorem coherent_greeting : greeting.Coherent fun _ => .string [0x68, 0x69] := by
  intro n hn
  have hobject : n = (0, .string [0x68, 0x69]) := by simpa [greeting, Val.nodes] using hn
  rw [hobject]

/-- The second pointer at the string comes back as one at the string that came back first. -/
theorem greeting_recovered :
    ∃ cs w us w' s, starContext.putAll [greeting] {} = .ok (cs, w) ∧
      starContext.put greeting w = .ok (us, w') ∧
      Reads eof (each [starContext.readAs 2 (.sharedPtr .string)]) {} cs [greeting] s ∧
      starContext.ReadsRight 2 [0] s us .string 0 (.string [0x68, 0x69]) := by
  have hco : ∀ x ∈ [greeting], x.Coherent fun _ => .string [0x68, 0x69] :=
    List.forall_mem_singleton.mpr coherent_greeting
  obtain ⟨cs, w, us, w', hputs, hput, hread⟩ :=
    recovers_iff (C := starContext) rfl (.cons holds_greeting .nil) hco (by decide) holds_greeting
      coherent_greeting (fun _ => rfl)
  obtain ⟨s, hreads, hright⟩ := hread 2 (by decide)
  exact ⟨cs, w, us, w', s, hputs, hput, hreads, hright.mpr (by decide)⟩

/-- A pointer at the number `5`, the first one on its stream, is taken for one at an object with the
number 5.  Where there is such an object it is handed out: of two pointers at `-1` and at `0`, the
second comes back as one more pointer at `-1`. -/
theorem first_number_mistaken :
    Holds starContext (fun _ => .int true .w32) (.sharedPtr (.int true .w32))
      (.shared (.int true .w32) 0 (.int true .w32 5)) ∧
    (∃ us w', starContext.put (.shared (.int true .w32) 0 (.int true .w32 5)) {} = .ok (us, w') ∧
      bytes us = [0x92, 0xff, 0x05] ∧
      ¬ starContext.ReadsRight 2 [] {} us (.int true .w32) 0 (.int true .w32 5)) ∧
    faultOf (starContext.readBytes 2 (.sharedPtr (.int true .w32)) (fun _ _ => 0)
      [0x92, 0xff, 0x05]) = some .undefined ∧
    (∃ us w', starContext.putAll [.shared (.int true .w32) 0 (.int true .w32 (-1)),
        .shared (.int true .w32) 1 (.int true .w32 0)] {} = .ok (us, w') ∧
      bytes us = [0x92, 0xff, 0xff, 0x92, 0xff, 0x00]) ∧
    starContext.readBytes 3 (.pair (.sharedPtr (.int true .w32)) (.sharedPtr (.int true .w32)))
        (fun _ _ => 0) [0x92, 0x92, 0xff, 0xff, 0x92, 0xff, 0x00] =
      .ok (.seq [.shared (.int true .w32) 0 (.int true .w32 (-1)),
        .shared (.int true .w32) 0 (.int true .w32 (-1))],
        ⟨7, [], 0, { saved := [(.int true .w32, 0, .int true .w32 (-1))], next := 1 }⟩) := by
  have hty : Holds starContext (fun _ => .int true .w32) (.sharedPtr (.int true .w32))
      (.shared (.int true .w32) 0 (.int true .w32 5)) :=
    .shared (.plain rfl rfl) (by decide) (.int (by decide))
  have hstep := starContext.lockstep_init (fun _ => .int true .w32 5) (fun _ => .int true .w32)
  refine ⟨hty, ⟨_, _, rfl, by decide, ?_⟩, by decide +kernel, ⟨_, _, rfl, by decide⟩, rfl⟩
  exact not_readsRight_of_numbered rfl hty hstep rfl rfl List.not_mem_nil rfl

end Context

end Nodeoze.Bstream
