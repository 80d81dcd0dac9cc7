import Nodeoze.Bstream.RoundTrip

/-!
# Round trips of pointers

A pointer is a type tag and an object, or a type tag and the number of an object already
streamed.  The two places where the reader goes wrong are both here: an object whose static type
lies in its middle is handed out at the wrong address, and the number of a back reference that
needs 32 bits has a type code that `is_positive_int` does not know.
-/

namespace Nodeoze.Bstream

open Reader

namespace Context

variable {C : Context} {heap : Nat → Val}

theorem reads_readTypeTag (C : Context) {tag : Int} (h : InRange true .w32 tag) (s : SavedPtrs) :
    Reads eof C.readTypeTag s (C.writeTypeTag tag) tag s := by
  refine Reads.bind (reads_readArrayHeader C.order (by decide) s) ?_
  rw [if_pos rfl]
  exact reads_getInt C.order h s

/-- The dynamic type is the one the typing of the object says. -/
theorem Points.dynamicTy_eq {t d : Ty} {v : Val} (hpt : C.Points t d) (h : HasTy C d v) :
    v.dynamicTy t = d := by
  cases hpt with
  | registered => cases h; rfl
  | plain =>
    cases h with
    | enum hu => cases hu <;> rfl
    | _ => rfl

/-- A value of a class type is an object of that class. -/
def IsA (d : Ty) (v : Val) : Prop := ∀ c, d = .cls c → ∃ vs, v = .obj c vs

theorem isA_of_hasTy {d : Ty} {v : Val} (h : HasTy C d v) : IsA d v := by
  rintro c rfl
  cases h
  exact ⟨_, rfl⟩

/-- So is what `typeid` finds behind the pointer. -/
theorem Points.typeidOf_eq {t d : Ty} {v : Val} (hpt : C.Points t d) (hv : IsA d v) :
    C.typeidOf t v = d := by
  cases hpt with
  | @registered h d _ _ _ _ hpoly =>
    obtain ⟨vs, rfl⟩ := hv d rfl
    rcases hpoly with rfl | hpoly
    · exact ite_self _
    · exact if_pos hpoly
  | plain =>
    cases t with
    | cls c =>
      obtain ⟨vs, rfl⟩ := hv c rfl
      exact ite_self _
    | _ => rfl

theorem noObject_eq_false {d : Ty} {v : Val} (hv : IsA d v) : noObject d v = false := by
  cases d with
  | cls c =>
    obtain ⟨vs, rfl⟩ := hv c rfl
    rfl
  | _ => rfl

theorem isA_rename {d : Ty} {v : Val} (hv : IsA d v) (f : Nat → Nat) : IsA d (v.rename f) := by
  intro c hc
  obtain ⟨vs, rfl⟩ := hv c hc
  exact ⟨_, by rw [Val.rename]⟩

theorem create_of_registered {rec : Ty → Read Val} {h d : Nat} (hh : h ∈ C.types) (hd : d ∈ C.types)
    (hbase : C.isBaseOf h d = true) (habs : C.isAbstract d = false) :
    C.deserializePointee rec (.cls h) (C.typeTag (.cls d)) =
      (do let v ← rec (.cls d)
          if C.offset d h = 0 then pure (some v) else throw .undefined) := by
  have htag : C.typeTag (.cls d) ≠ -1 := by simp [typeTag, hd]
  simp [deserializePointee, htag, create, C.typeAt_typeTag hd, C.typeAt_typeTag hh, hbase, habs]

theorem create_of_plain {rec : Ty → Read Val} {t : Ty} (htag : C.typeTag t = -1)
    (habs : C.abstractTy t = false) :
    C.deserializePointee rec t (C.typeTag t) = (do let v ← rec t; pure (some v)) := by
  simp [deserializePointee, htag, habs]

section

variable {rec : Ty → Read Val} {t d : Ty} {v : Val} {s : SavedPtrs} {ts : List Chunk}

/-- Behind its tag, the object of a pointer is read if the pointer points at its start. -/
theorem reads_pointee (hpt : C.Points t d) (hv : IsA d v) (hoff : C.subobject t v = 0) {v' : Val}
    {s' : SavedPtrs} (hr : Reads eof (rec d) s ts v' s') :
    Reads eof (C.deserializePointee rec t (C.typeTag d)) s ts (some v') s' := by
  cases hpt with
  | @registered h d hh hd hbase habs hpoly =>
    obtain ⟨vs, rfl⟩ := hv d rfl
    have hoff' : C.offset d h = 0 := hoff
    rw [create_of_registered hh hd hbase habs]
    simp only [hoff', if_true]
    exact Reads.then_pure some hr
  | plain htag habs =>
    rw [create_of_plain htag habs]
    exact Reads.then_pure some hr

/-- Through a pointer into the middle of an object nothing is read, whatever the stream holds. -/
theorem fails_pointee_of_subobject (hpt : C.Points t d) (hv : IsA d v) (hoff : C.subobject t v ≠ 0) :
    Fails (C.deserializePointee rec t (C.typeTag d)) s ts := by
  cases hpt with
  | @registered h d hh hd hbase habs hpoly =>
    obtain ⟨vs, rfl⟩ := hv d rfl
    have hoff' : C.offset d h ≠ 0 := hoff
    rw [create_of_registered hh hd hbase habs]
    simp only [hoff', if_false]
    exact Fails.then_throw Fault.undefined
  | plain htag habs =>
    refine absurd ?_ hoff
    cases t with
    | cls c =>
      obtain ⟨vs, rfl⟩ := hv c rfl
      exact C.offset_self c
    | _ => rfl

theorem fails_pointee (hpt : C.Points t d) (hf : Fails (rec d) s ts) :
    Fails (C.deserializePointee rec t (C.typeTag d)) s ts := by
  cases hpt with
  | registered hh hd hbase habs hpoly =>
    rw [create_of_registered hh hd hbase habs]
    exact hf.bind
  | plain htag habs =>
    rw [create_of_plain htag habs]
    exact hf.bind

end

/-- Behind its tag, the object of a pointer is read back if the pointer points at its start. -/
theorem pointee {rec : Ty → Read Val} {t d : Ty} {v : Val} (hpt : C.Points t d)
    (hty : HasTy C d v) (hrt : C.RoundTrips heap (rec d) v) (hco : v.Coherent heap)
    {seen : List Nat} {w w' : SavedTags} {s : SavedPtrs} {ts : List Chunk}
    (hsync : C.Sync heap seen w s) (hput : C.put v w = .ok (ts, w')) :
    (C.Good v seen ∧ C.subobject t v = 0 ∧ ∃ v' s',
      Reads eof (C.deserializePointee rec t (C.typeTag d)) s ts (some v') s' ∧
      C.Copies v v' (v.visit seen) ∧ C.Sync heap (v.visit seen) w' s') ∨
    (¬ (C.Good v seen ∧ C.subobject t v = 0) ∧
      Fails (C.deserializePointee rec t (C.typeTag d)) s ts) := by
  have hv : IsA d v := isA_of_hasTy hty
  by_cases hoff : C.subobject t v = 0
  · rcases hrt.reads hco seen w s ts w' hsync hput with ⟨hg, v', s', hr, hcp, hs⟩ | ⟨hg, hf⟩
    · exact .inl ⟨hg, hoff, v', s', reads_pointee hpt hv hoff hr, hcp, hs⟩
    · exact .inr ⟨fun h => hg h.1, fails_pointee hpt hf⟩
  · exact .inr ⟨fun h => hoff h.2, fails_pointee_of_subobject hpt hv hoff⟩

theorem good_own {t : Ty} {v : Val} {seen : List Nat} :
    C.Good (.own t v) seen ↔ C.Good v seen ∧ C.subobject t v = 0 := by
  simp only [Good, aligned, Bool.and_eq_true, beq_iff_eq, Val.repeats]
  tauto

theorem RoundTrips.null {p : Read Val} (hread : ∀ s, Reads eof p s C.writeNullPtr .null s) :
    C.RoundTrips heap p .null :=
  .scalar (fun _ => rfl) hread rfl (fun _ => rfl) (good_of_aligned rfl fun _ => rfl)

theorem reads_null {k : Int → UInt8 → Read Val} (s : SavedPtrs) (h : k (-1) Typecode.nil =
    (do let _ ← get eof; pure .null)) :
    Reads eof (do let tag ← C.readTypeTag; let code ← peek eof; k tag code) s C.writeNullPtr
      .null s := by
  refine Reads.bind (reads_readTypeTag C (by decide) s) (Reads.peek ?_)
  rw [h]
  exact Reads.then_pure (fun _ => Val.null) (Reads.get Typecode.nil s)

theorem RoundTrips.own {rec : Ty → Read Val} {t d : Ty} {v : Val} (hpt : C.Points t d)
    (hty : HasTy C d v) (hrt : C.RoundTrips heap (rec d) v) :
    C.RoundTrips heap (C.readAsUniquePtr rec t) (.own t v) where
  writes := by
    intro w
    obtain ⟨ts, w', h⟩ := hrt.writes w
    exact ⟨_, w', by simp only [put, h, Except.map]; rfl⟩
  reads := by
    intro hco seen w s cs w' hsync hw
    obtain ⟨⟨ts, w₁⟩, h1, hcs⟩ := Fallible.map_eq_ok.mp hw
    rw [hpt.dynamicTy_eq hty, Prod.mk.injEq] at hcs
    obtain ⟨rfl, rfl⟩ := hcs
    obtain ⟨c, us, hts, hc, -⟩ := put_code h1
    rw [good_own]
    have htag := reads_readTypeTag C (C.typeTag_inRange d) s
    rcases pointee hpt hty hrt hco hsync h1 with ⟨hg, hoff, v', s', hr, hcp, hs⟩ | ⟨hg, hf⟩
    · refine .inl ⟨⟨hg, hoff⟩, .own t v', s', ?_, ⟨?_, ?_⟩, hs⟩
      · refine Reads.bind htag ?_
        rw [hts] at hr ⊢
        refine Reads.peek ?_
        rw [if_neg hc]
        exact hr.bind_pure rfl
      · simpa [Val.erase, Val.rename] using hcp.1
      · intro hd
        simp only [Val.rename, ← hcp.2 hd, Val.visit]
    · refine .inr ⟨hg, Fails.bind_right htag ?_⟩
      rw [hts] at hf ⊢
      refine Fails.peek ?_
      rw [if_neg hc]
      exact hf.bind

/-! ### Back references -/

/-- An object cannot be read from a 32-bit unsigned number. -/
theorem readAs_cls_fails (fuel c : Nat) (s : SavedPtrs) (us : List Chunk) :
    Fails (C.readAs fuel (.cls c)) s (.byte Typecode.uint32 :: us) := by
  cases fuel with
  | zero => exact Fails.throw Fault.fuel s _
  | succ fuel =>
    refine Fails.bind ?_
    have hget : Reads eof (get eof : Read UInt8) s [.byte Typecode.uint32] Typecode.uint32 s :=
      Reads.get _ s
    have hcode : Fails (throw (.system .typeError) : Read Nat) s us := Fails.throw _ s us
    exact Fails.bind_right hget (by simpa using hcode)

/-- A pointer at an object in the table gives that object again. -/
theorem reads_getSavedPtr {t d : Ty} {v v' : Val} {k n : Nat} {s : SavedPtrs} (hpt : C.Points t d)
    (hv : IsA d v) (hoff : C.subobject t v = 0) (hd : C.dedupSharedPtrs = true) (hk : k < 2 ^ 64)
    (hv' : IsA d v') (hsaved : s.saved[k]? = some (d, n, v')) :
    Reads eof (C.getSavedPtr t (C.typeTag d)) s (putUnsigned C.order k) (.shared t n v') s := by
  have hidx : InRange false .w64 (k : Int) := by
    simp only [InRange, Bool.false_eq_true, if_false, Width.size]
    omega
  rw [getSavedPtr, if_pos hd]
  have hint : Reads eof (getInt C.order false .w64) s (putUnsigned C.order k) (k : Int) s :=
    reads_getInt C.order hidx s
  rw [← List.append_nil (putUnsigned C.order k)]
  refine Reads.bind hint (Reads.bind_nil (Reads.getUser s) ?_)
  simp only [Int.toNat_natCast, hsaved, savedPtr, noObject_eq_false hv']
  cases hpt with
  | @registered h d hh hd' hbase habs hpoly =>
    obtain ⟨vs, rfl⟩ := hv d rfl
    have hoff' : C.offset d h = 0 := hoff
    have htag : -1 < C.typeTag (.cls d) := by
      simp only [typeTag, hd', if_true]
      omega
    simp only [htag, if_true, C.typeAt_typeTag hd', C.typeAt_typeTag hh, hbase, hoff', true_or]
    exact Reads.pure _ s
  | plain htag habs =>
    have hno : ¬ (-1 < C.typeTag t) := by rw [htag]; decide
    simp only [hno, if_false, Ty.same_self, if_true]
    exact Reads.pure _ s

theorem good_shared_of_not_mem {t : Ty} {a : Nat} {v : Val} {seen : List Nat} (ha : a ∉ seen) :
    C.Good (.shared t a v) seen ↔ C.Good v seen ∧ C.subobject t v = 0 := by
  simp only [Good, aligned, Bool.and_eq_true, beq_iff_eq, Val.repeats, ha, if_false]
  tauto

theorem good_shared_of_mem {t : Ty} {a : Nat} {v : Val} {seen : List Nat} (ha : a ∈ seen)
    (hd : C.dedupSharedPtrs = true) (hv : C.aligned v = true) :
    C.Good (.shared t a v) seen ↔ C.subobject t v = 0 ∧ misread (seen.idxOf a) = false := by
  simp [Good, aligned, Val.repeats, ha, hd, hv]

/-! ### Reading a shared pointer -/

section

variable {fuel k : Nat} {t d : Ty} {s s' : SavedPtrs} {ts : List Chunk}

/-- Behind a code that is not that of a positive number the reader makes a new object. -/
theorem reads_newObject (hts : StartsWith (CodeOf false) ts) {v' : Val}
    (hr : Reads eof (C.deserializePointee (C.readAs fuel) t (C.typeTag d)) s ts (some v') s') :
    Reads eof (C.readAsSharedPtr (C.readAs fuel) t) s (C.writeTypeTag (C.typeTag d) ++ ts)
      (.shared t s'.next v') (C.allocate t v' s') := by
  obtain ⟨c, us, rfl, hnil, hpos⟩ := hts
  refine Reads.bind (reads_readTypeTag C (C.typeTag_inRange d) s) (Reads.peek ?_)
  rw [if_neg hnil, if_neg (by simp [hpos])]
  rw [← List.append_nil (.byte c :: us)]
  refine Reads.bind hr (Reads.bind_nil (Reads.getUser s') ?_)
  exact (Reads.setUser s' (C.allocate t v' s')).bind_pure rfl

theorem fails_newObject (hts : StartsWith (CodeOf false) ts)
    (hf : Fails (C.deserializePointee (C.readAs fuel) t (C.typeTag d)) s ts) :
    Fails (C.readAsSharedPtr (C.readAs fuel) t) s (C.writeTypeTag (C.typeTag d) ++ ts) := by
  obtain ⟨c, us, rfl, hnil, hpos⟩ := hts
  refine Fails.bind_right (reads_readTypeTag C (C.typeTag_inRange d) s) (Fails.peek ?_)
  rw [if_neg hnil, if_neg (by simp [hpos])]
  exact hf.bind

/-- Behind the code of a positive number it looks one up. -/
theorem reads_savedObject (hts : StartsWith (CodeOf true) ts) {v' : Val}
    (hr : Reads eof (C.getSavedPtr t (C.typeTag d)) s ts v' s') :
    Reads eof (C.readAsSharedPtr (C.readAs fuel) t) s (C.writeTypeTag (C.typeTag d) ++ ts) v' s' := by
  obtain ⟨c, us, rfl, hnil, hpos⟩ := hts
  refine Reads.bind (reads_readTypeTag C (C.typeTag_inRange d) s) (Reads.peek ?_)
  rw [if_neg hnil, if_pos hpos]
  exact hr

end

/-- A shared object that is streamed in full. -/
theorem reads_first {fuel h d : Nat} {v : Val} (hpt : C.Points (.cls h) (.cls d))
    (hty : HasTy C (.cls d) v) (hrt : C.RoundTrips heap (C.readAs fuel (.cls d)) v)
    (hco : v.Coherent heap) {seen : List Nat} {w w' : SavedTags} {s : SavedPtrs} {ts : List Chunk}
    (hsync : C.Sync heap seen w s) (hput : C.put v w = .ok (ts, w')) :
    (C.Good v seen ∧ C.subobject (.cls h) v = 0 ∧ ∃ v' s',
      Reads eof (C.readAsSharedPtr (C.readAs fuel) (.cls h)) s
        (C.writeTypeTag (C.typeTag (.cls d)) ++ ts) (.shared (.cls h) s'.next v')
        (C.allocate (.cls h) v' s') ∧
      C.Copies v v' (v.visit seen) ∧ C.Sync heap (v.visit seen) w' s') ∨
    (¬ (C.Good v seen ∧ C.subobject (.cls h) v = 0) ∧
      Fails (C.readAsSharedPtr (C.readAs fuel) (.cls h)) s
        (C.writeTypeTag (C.typeTag (.cls d)) ++ ts)) := by
  have hhead : StartsWith (CodeOf false) ts := by
    obtain ⟨vs, rfl⟩ := isA_of_hasTy hty d rfl
    exact put_code hput
  rcases pointee hpt hty hrt hco hsync hput with ⟨hg, hoff, v', s', hr, hcp, hs⟩ | ⟨hg, hf⟩
  · exact .inl ⟨hg, hoff, v', s', reads_newObject hhead hr, hcp, hs⟩
  · exact .inr ⟨hg, fails_newObject hhead hf⟩

/-- A back reference. -/
theorem reads_backRef (fuel : Nat) {h d a : Nat} {v : Val} {seen : List Nat} {w : SavedTags}
    {s : SavedPtrs} (hpt : C.Points (.cls h) (.cls d)) (hty : HasTy C (.cls d) v)
    (hd : C.dedupSharedPtrs = true) (hstep : C.InStep heap seen w s) (ha : a ∈ seen)
    (hv : heap a = v) (hoff : C.subobject (.cls h) v = 0) :
    (misread (seen.idxOf a) = false ∧
      Reads eof (C.readAsSharedPtr (C.readAs fuel) (.cls h)) s
        (C.writeTypeTag (C.typeTag (.cls d)) ++ putUnsigned C.order (seen.idxOf a))
        (.shared (.cls h) (seen.idxOf a) (v.rename fun b => seen.idxOf b)) s) ∨
    (misread (seen.idxOf a) = true ∧
      Fails (C.readAsSharedPtr (C.readAs fuel) (.cls h)) s
        (C.writeTypeTag (C.typeTag (.cls d)) ++ putUnsigned C.order (seen.idxOf a))) := by
  have hcode := putUnsigned_code (n := seen.idxOf a) C.order
  cases hm : misread (seen.idxOf a) with
  | false =>
    have hpos : StartsWith (CodeOf true) (putUnsigned C.order (seen.idxOf a)) :=
      hcode.imp fun c hc => ⟨hc.1, by rw [hc.2.1, hm]; rfl⟩
    have hlt : seen.idxOf a < seen.length := List.idxOf_lt_length_of_mem ha
    have hsaved := hstep.lockstep.saved_of_mem ha
    have hclass : Ty.cls (heap a).classOf = .cls d := by
      obtain ⟨vs, hvs⟩ := isA_of_hasTy hty d rfl
      rw [hv, hvs]
      rfl
    rw [hclass, hv] at hsaved
    have hk : seen.idxOf a < 2 ^ 64 := hlt.trans_le hstep.lockstep.length_le
    exact .inl ⟨rfl, reads_savedObject hpos
      (reads_getSavedPtr hpt (isA_of_hasTy hty) hoff hd hk (isA_rename (isA_of_hasTy hty) _) hsaved)⟩
  | true =>
    have hneg : StartsWith (CodeOf false) (putUnsigned C.order (seen.idxOf a)) :=
      hcode.imp fun c hc => ⟨hc.1, by rw [hc.2.1, hm]; rfl⟩
    refine .inr ⟨rfl, fails_newObject hneg (fails_pointee hpt ?_)⟩
    obtain ⟨c, us, hus, -, -, hmis⟩ := hcode
    rw [hus, hmis hm]
    exact readAs_cls_fails fuel d s us

section

variable {h d a : Nat} {v v' : Val} {seen : List Nat} {w : SavedTags} {s : SavedPtrs}

/-- The copy of a new object gets the next number. -/
theorem copies_saved (hnew : a ∉ seen) (hnodes : ∀ n ∈ v.nodes, n.1 ∈ seen)
    (hcp : C.Copies v v' seen) (hs : C.Sync heap seen w s) :
    C.Copies (.shared (.cls h) a v) (.shared (.cls h) s.next v') (seen ++ [a]) := by
  have hpre : seen <+: seen ++ [a] := List.prefix_append _ _
  refine ⟨by simpa [Val.erase, Val.rename] using hcp.1, ?_⟩
  intro hd
  rw [Val.rename, rename_idxOf_of_extends hpre hnodes, ← hcp.2 hd, (hs hd).ptrsNext,
    List.idxOf_append_of_notMem hnew]
  simp

/-- A new object is saved on both sides. -/
theorem sync_saved (hpt : C.Points (.cls h) (.cls d)) (hty : HasTy C (.cls d) v) (hv : heap a = v)
    (halt : a < 2 ^ 64) (hnew : a ∉ seen) (hnodes : ∀ n ∈ v.nodes, n.1 ∈ seen) (hal : C.aligned v = true)
    (hcp : C.Copies v v' seen) (hs : C.Sync heap seen w s) :
    C.Sync heap (seen ++ [a]) (w.save (a, 0) (C.typeTag (.cls d))) (C.allocate (.cls h) v' s) := by
  intro hd
  have hsave := (hs hd).save hnew halt (by rw [hv]; exact hal) (by rwa [hv])
  have hclass : v.classOf = d := by
    cases hty
    rfl
  have htypeid : C.typeidOf (.cls h) v' = .cls d := by
    refine hpt.typeidOf_eq ?_
    rw [hcp.2 hd]
    exact isA_rename (isA_of_hasTy hty) _
  rw [hv, hclass, ← hcp.2 hd] at hsave
  simpa [allocate, hd, htypeid] using hsave

end

theorem RoundTrips.shared {fuel h d a : Nat} {v : Val} (hpt : C.Points (.cls h) (.cls d))
    (halt : a < 2 ^ 64) (hty : HasTy C (.cls d) v)
    (hrt : C.RoundTrips heap (C.readAs fuel (.cls d)) v) :
    C.RoundTrips heap (C.readAsSharedPtr (C.readAs fuel) (.cls h)) (.shared (.cls h) a v) where
  writes := by
    intro w
    obtain ⟨ts, w', h1⟩ := hrt.writes w
    simp only [put, h1, Except.map]
    split_ifs
    · split
      · exact ⟨_, _, rfl⟩
      · exact ⟨_, _, rfl⟩
    · exact ⟨_, _, rfl⟩
  reads := by
    intro hco seen w s cs w' hsync hw
    have hcv : v.Coherent heap := fun n hn => hco n (by simp [Val.nodes, hn])
    have hv : heap a = v := hco (a, v) (by simp [Val.nodes])
    obtain ⟨ts, w₁, h1⟩ := hrt.writes w
    have hfirst := reads_first hpt hty hrt hcv hsync h1
    simp only [put, h1, Except.map, hpt.dynamicTy_eq hty] at hw
    by_cases hd : C.dedupSharedPtrs = true
    · have hstep := hsync hd
      rw [if_pos hd] at hw
      by_cases hoff : C.subobject (.cls h) v = 0
      · rw [hoff] at hw
        by_cases ha : a ∈ seen
        · -- the object is completed: only its number is written
          have hal : C.aligned v = true := by rw [← hv]; exact hstep.aligned a ha
          have hdyn : (Ty.cls v.classOf) = .cls d := by cases hty; rfl
          simp only [hstep.lockstep.find_of_mem ha, hv, hdyn, Except.ok.injEq, Prod.mk.injEq] at hw
          obtain ⟨rfl, rfl⟩ := hw
          rw [good_shared_of_mem ha hd hal]
          have hvisit : (Val.shared (.cls h) a v).visit seen = seen := by simp [Val.visit, ha]
          rw [hvisit]
          rcases reads_backRef fuel hpt hty hd hstep ha hv hoff with ⟨hm, hr⟩ | ⟨hm, hf⟩
          · refine .inl ⟨⟨hoff, hm⟩, _, s, hr, ⟨?_, fun _ => rfl⟩, hsync⟩
            have he : (v.rename fun b => seen.idxOf b).erase = v.erase := Val.erase_rename _ v
            simpa [Val.erase, Val.rename] using he
          · exact .inr ⟨fun hg => by simp [hg.2] at hm, hf⟩
        · -- the object is new: it is written and then saved
          simp only [hstep.lockstep.find_of_not_mem ha, Except.ok.injEq, Prod.mk.injEq] at hw
          obtain ⟨rfl, rfl⟩ := hw
          rw [good_shared_of_not_mem ha]
          have hvisit : (Val.shared (.cls h) a v).visit seen = v.visit seen ++ [a] := by
            simp [Val.visit, ha]
          rw [hvisit]
          rcases hfirst with ⟨hg, -, v', s', hr, hcp, hs⟩ | ⟨hg, hf⟩
          · have hnew : a ∉ v.visit seen := by
              intro hmem
              rcases mem_visit hmem with hmem | ⟨n, hn, hna⟩
              · exact ha hmem
              · exact hcv.not_mem_self hv n hn hna
            have hnodes := (visits heap v hcv seen hstep.closed).1
            exact .inl ⟨⟨hg, hoff⟩, _, _, hr, copies_saved hnew hnodes hcp hs,
              sync_saved hpt hty hv halt hnew hnodes hg.1 hcp hs⟩
          · exact .inr ⟨hg, hf⟩
      · -- the pointer points into the middle of the object
        simp only [hstep.lockstep.find_of_offset a hoff, Except.ok.injEq, Prod.mk.injEq] at hw
        obtain ⟨rfl, rfl⟩ := hw
        rcases hfirst with ⟨-, hoff', -⟩ | ⟨-, hf⟩
        · exact absurd hoff' hoff
        · refine .inr ⟨?_, hf⟩
          intro hg
          have := hg.1
          simp [aligned, hoff] at this
    · rw [if_neg hd, Except.ok.injEq, Prod.mk.injEq] at hw
      obtain ⟨rfl, rfl⟩ := hw
      have hgood : C.Good (.shared (.cls h) a v) seen ↔
          C.Good v seen ∧ C.subobject (.cls h) v = 0 := by
        simp only [Good, aligned, Bool.and_eq_true, beq_iff_eq, hd, Bool.false_eq_true,
          false_implies, and_true]
        tauto
      rw [hgood]
      rcases hfirst with ⟨hg, hoff, v', s', hr, hcp, hs⟩ | ⟨hg, hf⟩
      · refine .inl ⟨⟨hg, hoff⟩, _, _, hr, ⟨?_, fun h => absurd h hd⟩, fun h => absurd h hd⟩
        simpa [Val.erase, Val.rename] using hcp.1
      · exact .inr ⟨hg, hf⟩

end Context

end Nodeoze.Bstream
