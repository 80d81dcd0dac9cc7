import Nodeoze.Bstream.SharedObjects

/-!
# Malformed pointers

What `read_as` does on bytes that no writer has written.  Tags and numbers of saved pointers go from
the stream into subscripts that nothing checks, so the call may go astray.  `skim` decides when: it
reads over the bytes of a value, builds nothing, and of the saved pointers it keeps the types.
-/

namespace Nodeoze.Bstream

open Reader

/-- Readers that keep of every saved pointer its type and whether it is null. -/
abbrev Skim (α : Type) : Type := Istream (List (Ty × Bool)) α

/-- What is behind a tag. -/
inductive Announced
  /-- An object of the type, with the static type of the pointer at its start or not. -/
  | object (d : Ty) (atStart : Bool)
  /-- Nothing: the factory of an abstract class makes no object. -/
  | nothing
  | refused (e : Errc)
  /-- The tag is no index of the tables. -/
  | outside

namespace Context

variable (C : Context)

/-- What a pointer of static type `t` finds behind a tag. -/
def announced (t : Ty) (tag : Int) : Announced :=
  if tag = -1 then
    if C.abstractTy t then .refused .abstractNonPolyClass else .object t true
  else
    match C.typeAt tag, C.typeAt (C.typeTag t) with
    | some d, some h =>
      if C.isBaseOf h d then
        if C.isAbstract d then .nothing else .object (.cls d) (C.offset d h == 0)
      else .refused .invalidPtrDowncast
    | _, _ => .outside

/-- Whether a pointer of static type `t` may share the saved pointer that a tag and a number name. -/
def recallSaved (t : Ty) (tag : Int) (saved : Ty × Bool) : Except Fault Unit :=
  if -1 < tag then
    if C.typeTag saved.1 = tag then
      match C.typeAt tag, C.typeAt (C.typeTag t) with
      | some d, some h =>
        if C.isBaseOf h d then
          if C.offset d h = 0 ∨ saved.2 then .ok () else .error .undefined
        else .error (.system .invalidPtrDowncast)
      | _, _ => .error .undefined
    else .error (.system .typeError)
  else if saved.1.same t then .ok ()
  else .error (.system .typeError)

variable (rec : Ty → Skim Unit)

def skimPointee (t : Ty) (tag : Int) : Skim (Option Ty) :=
  match C.announced t tag with
  | .object d atStart => do
    rec d
    if atStart then pure (some d) else throw .undefined
  | .nothing => pure none
  | .refused e => throw (.system e)
  | .outside => throw .undefined

def skimNew (t : Ty) (tag : Int) : Skim Unit := do
  let object ← C.skimPointee rec t tag
  let saved ← getUser
  match object with
  | some d => do
    let entry := (if C.polymorphicTy t then d else t, false)
    setUser (if C.dedupSharedPtrs then saved ++ [entry] else saved)
    pure ()
  | none =>
    if C.dedupSharedPtrs then
      if C.polymorphicTy t then throw .badTypeid
      else do
        setUser (saved ++ [(t, noObject t .null)])
        pure ()
    else pure ()

def skimSaved (t : Ty) (tag : Int) : Skim Unit :=
  if C.dedupSharedPtrs then do
    let index ← getInt C.order false .w64
    let saved ← getUser
    match saved[index.toNat]? with
    | none => throw .undefined
    | some e => do
      ofExcept (C.recallSaved t tag e)
      pure ()
  else throw (.system .contextMismatch)

def skimTypeTag : Skim Int := do
  let n ← readArrayHeader C.order
  if n = 2 then getInt C.order true .w32 else throw (.system .typeError)

def skimUniquePtr (t : Ty) : Skim Unit := do
  let tag ← C.skimTypeTag
  let code ← peek eof
  if code = Typecode.nil then
    let _ ← get eof
    pure ()
  else
    let _ ← C.skimPointee rec t tag
    pure ()

def skimSharedPtr (t : Ty) : Skim Unit := do
  let tag ← C.skimTypeTag
  let code ← peek eof
  if code = Typecode.nil then
    let _ ← get eof
    pure ()
  else if Typecode.isPositiveInt code then C.skimSaved t tag
  else C.skimNew rec t tag

def skimContainer (t : Ty) : Skim Unit := do
  let length ← readArrayHeader C.order
  loop (fun _ => rec t) length ()

/-- Read over a value. -/
def skim : Nat → Ty → Skim Unit
  | 0, _ => throw .fuel
  | _ + 1, .bool | _ + 1, .enum .bool => do
    let _ ← getBool
    pure ()
  | _ + 1, .int sg w | _ + 1, .enum (.int sg w) => do
    let _ ← getInt C.order sg w
    pure ()
  | _ + 1, .float => do
    let _ ← getFloat C.order
    pure ()
  | _ + 1, .double => do
    let _ ← getDouble C.widen C.order
    pure ()
  | _ + 1, .string => do
    let _ ← getString C.order
    pure ()
  | _ + 1, .buffer => do
    let _ ← readBlob C.order
    pure ()
  | fuel + 1, .pair a b => do
    checkArrayHeader C.order 2
    skim fuel a
    skim fuel b
  | fuel + 1, .tuple ts => do
    checkArrayHeader C.order ts.length
    let _ ← each (ts.map (skim fuel))
    pure ()
  | fuel + 1, .seq _ t | fuel + 1, .set _ t => C.skimContainer (skim fuel) t
  | fuel + 1, .map _ kt vt => C.skimContainer (skim fuel) (.pair kt vt)
  | fuel + 1, .cls c => do
    let length ← readArrayHeader C.order
    if length = C.itemCount c then
      let _ ← each ((C.parts c).map (skim fuel))
      pure ()
    else throw (.system .memberCountError)
  | fuel + 1, .uniquePtr t => C.skimUniquePtr (skim fuel) t
  | fuel + 1, .sharedPtr t => C.skimSharedPtr (skim fuel) t

/-! ### A byte for every level -/

section Levels

variable {C} {rec : Ty → Read Val} {n : Nat}

theorem consumes_leaf {α σ : Type} {p : ∀ σ : Type, Istream σ α} (h : IsLeaf p) (n : Nat) :
    Consumes .fuel n 0 (p σ) := by
  refine h.consumes ?_ n σ
  rintro ⟨c, hc⟩
  cases hc

theorem consumes_get : Consumes .fuel n 1 (get eof : Read UInt8) := .get (by decide)

theorem consumes_peek : Consumes .fuel n 0 (peek eof : Read UInt8) := .peek (by decide)

theorem consumes_system {α : Type} (c : Errc) :
    Consumes .fuel n 0 (throw (.system c) : Read α) := .throw (by rintro ⟨⟩)

theorem consumes_header : Consumes .fuel n 1 (readArrayHeader C.order : Read Nat) := by
  refine consumes_get.andThen fun _ => ?_
  have hnum := fun w => consumes_leaf (σ := SavedPtrs) (leaf_getNum C.order w) n
  exact .ite (.pure _) (.ite (hnum 2) (.ite (hnum 4) (consumes_system _)))

theorem consumes_check (m : Nat) : Consumes .fuel n 1 (checkArrayHeader C.order m : Read Unit) :=
  consumes_header.andThen fun _ => .ite (.pure _) (consumes_system _)

theorem consumes_tag : Consumes .fuel n 1 C.readTypeTag :=
  consumes_header.andThen fun _ =>
    .ite (consumes_leaf (leaf_getInt C.order true .w32) n) (consumes_system _)

theorem consumes_pointee (hrec : ∀ t, Consumes .fuel n 0 (rec t)) (t : Ty) (tag : Int) :
    Consumes .fuel n 0 (C.deserializePointee rec t tag) := by
  refine .ite (.ite (consumes_system _) ((hrec t).andThen fun _ => .pure _)) ?_
  unfold create
  split
  · refine .ite (.ite (.pure _) ((hrec _).andThen fun _ => ?_)) (consumes_system _)
    exact .ite (.pure _) (.throw (by decide))
  · exact .throw (by decide)

theorem consumes_saved (t : Ty) (tag : Int) : Consumes .fuel n 0 (C.getSavedPtr t tag) := by
  refine .ite (Consumes.andThen (consumes_leaf (leaf_getInt C.order false .w64) n) fun index =>
    Consumes.getUser.andThen fun s => ?_) (consumes_system _)
  split
  · exact .throw (by decide)
  · refine .ite (.ite ?_ (consumes_system _)) (.ite (.pure _) (consumes_system _))
    split
    · exact .ite (.ite (.pure _) (.throw (by decide))) (consumes_system _)
    · exact .throw (by decide)

theorem consumes_new (hrec : ∀ t, Consumes .fuel n 0 (rec t)) (t : Ty) (tag : Int) :
    Consumes .fuel n 0 (C.deserializeAsSharedPtr rec t tag) := by
  refine (consumes_pointee hrec t tag).andThen fun object => Consumes.getUser.andThen fun s => ?_
  cases object with
  | none =>
    exact .ite (.ite (.throw (by decide)) ((Consumes.setUser _).andThen fun _ => .pure _)) (.pure _)
  | some v => exact (Consumes.setUser _).andThen fun _ => .pure _

theorem consumes_null : Consumes .fuel n 0 (do let _ ← get eof; pure .null : Read Val) :=
  (consumes_get.andThen fun _ => .pure _).imp le_rfl (Nat.zero_le 1)

theorem consumes_unique (hrec : ∀ t, Consumes .fuel n 0 (rec t)) (t : Ty) :
    Consumes .fuel (n + 1) 0 (C.readAsUniquePtr rec t) := by
  refine consumes_tag.behind fun tag => consumes_peek.andThen fun code => ?_
  refine .ite consumes_null ((consumes_pointee hrec t tag).andThen ?_)
  rintro (_ | v)
  · exact .pure _
  · exact .pure _

theorem consumes_shared (hrec : ∀ t, Consumes .fuel n 0 (rec t)) (t : Ty) :
    Consumes .fuel (n + 1) 0 (C.readAsSharedPtr rec t) := by
  refine consumes_tag.behind fun tag => consumes_peek.andThen fun code => ?_
  exact .ite consumes_null (.ite (consumes_saved t tag) (consumes_new hrec t tag))

theorem consumes_container (hrec : ∀ t, Consumes .fuel n 0 (rec t))
    (add : Val → List Val → List Val) (t : Ty) :
    Consumes .fuel (n + 1) 0 (C.readContainer rec add t) := by
  have hstep : ∀ acc, Consumes .fuel n 0 (do let v ← rec t; pure (add v acc)) :=
    fun acc => (hrec t).andThen fun v => .pure _
  exact consumes_header.behind fun length =>
    (Consumes.loop hstep length []).andThen fun vs => .pure _

/-- Every level of the recursion takes a byte. -/
theorem consumes_readAs (fuel : Nat) (t : Ty) : Consumes .fuel fuel 0 (C.readAs fuel t) := by
  induction fuel generalizing t with
  | zero =>
    constructor
    · intro junk st hlt
      omega
    · intro junk st a st' h
      cases h
  | succ fuel ih =>
    have hleaf : ∀ {α : Type} {p : ∀ σ : Type, Istream σ α} (_ : IsLeaf p) (f : α → Val),
        Consumes .fuel (fuel + 1) 0 (do let a ← p SavedPtrs; pure (f a)) :=
      fun h f => (consumes_leaf h _).andThen fun a => .pure (f a)
    have hall : ∀ (ts : List Ty) (f : List Val → Val),
        Consumes .fuel fuel 0 (do let vs ← each (ts.map (C.readAs fuel)); pure (f vs)) :=
      fun ts f => (Consumes.each (List.forall_mem_map.mpr fun t _ => ih t)).andThen fun vs => .pure _
    cases t with
    | bool => exact hleaf leaf_getBool _
    | int sg w => exact hleaf (leaf_getInt C.order sg w) _
    | enum u =>
      cases u with
      | bool => exact hleaf leaf_getBool _
      | int sg w => exact hleaf (leaf_getInt C.order sg w) _
    | float => exact hleaf (leaf_getFloat C.order) _
    | double => exact hleaf (leaf_getDouble C.order C.widen) _
    | string => exact hleaf (leaf_getString C.order) _
    | buffer => exact hleaf (leaf_readBlob C.order) _
    | pair a b =>
      exact (consumes_check 2).behind fun _ => (ih a).andThen fun x => (ih b).andThen fun y => .pure _
    | tuple ts => exact (consumes_check ts.length).behind fun _ => hall ts _
    | seq k t => exact consumes_container ih _ t
    | set k t => exact consumes_container ih _ t
    | map k kt vt => exact consumes_container ih _ (.pair kt vt)
    | cls c =>
      exact consumes_header.behind fun length => .ite (hall (C.parts c) _) (consumes_system _)
    | uniquePtr t => exact consumes_unique ih t
    | sharedPtr t => exact consumes_shared ih t

end Levels

/-! ### Reading and skimming -/

section Mirrored

/-- What skimming keeps of the saved pointers. -/
def savedTypes (s : SavedPtrs) : List (Ty × Bool) := s.saved.map fun e => (e.1, noObject e.1 e.2.2)

/-- `q` goes where `p` goes, and `p` returns a value of the type. -/
abbrev Skims (t : Ty) (p : Read Val) (q : Skim Unit) : Prop :=
  Mirrors savedTypes (fun v _ => IsA t v) p q

variable {C} {rec : Ty → Read Val} {rec' : Ty → Skim Unit} {t : Ty}

theorem isA_of_ne {v : Val} (h : ∀ c, t ≠ .cls c) : IsA t v := fun c hc => absurd hc (h c)

/-- An object behind a tag is of the static type of the pointer or of a class. -/
theorem announced_object {d : Ty} {tag : Int} {atStart : Bool}
    (h : C.announced t tag = .object d atStart) : d = t ∨ ∃ b c, t = .cls b ∧ d = .cls c := by
  unfold announced at h
  split_ifs at h
  · cases h
    exact .inl rfl
  · split at h
    · next d' h' hd hh =>
      split_ifs at h
      cases h
      cases t with
      | cls b => exact .inr ⟨b, d', rfl, rfl⟩
      | _ => cases hh
    · cases h

/-- What is saved of a new object. -/
theorem savedTypes_object {d : Ty} {v : Val} (hd : d = t ∨ ∃ b c, t = .cls b ∧ d = .cls c)
    (hv : IsA d v) : C.typeidOf t v = (if C.polymorphicTy t then d else t) ∧
      noObject (C.typeidOf t v) v = false := by
  rcases hd with rfl | ⟨b, c, rfl, rfl⟩
  · have hty : C.typeidOf d v = d := by
      cases d with
      | cls c =>
        obtain ⟨vs, rfl⟩ := hv c rfl
        exact ite_self _
      | _ => rfl
    rw [hty, ite_self]
    exact ⟨rfl, noObject_eq_false hv⟩
  · obtain ⟨vs, rfl⟩ := hv c rfl
    refine ⟨rfl, ?_⟩
    unfold typeidOf
    split_ifs <;> rfl

theorem deserializePointee_eq (t : Ty) (tag : Int) : C.deserializePointee rec t tag =
    match C.announced t tag with
    | .object d atStart => do
      let v ← rec d
      if atStart then pure (some v) else throw .undefined
    | .nothing => pure none
    | .refused e => throw (.system e)
    | .outside => throw .undefined := by
  unfold deserializePointee create announced
  by_cases htag : tag = -1
  · rw [if_pos htag, if_pos htag]
    split_ifs <;> rfl
  · rw [if_neg htag, if_neg htag]
    cases C.typeAt tag with
    | none => rfl
    | some d =>
      cases C.typeAt (C.typeTag t) with
      | none => rfl
      | some h =>
        by_cases hbase : C.isBaseOf h d <;> by_cases habs : C.isAbstract d <;> simp [hbase, habs]

/-- The object that was read and the type that was skimmed. -/
def SameObject (t : Ty) : Option Val → Option Ty → Prop
  | some v, some d => (d = t ∨ ∃ b c, t = .cls b ∧ d = .cls c) ∧ IsA d v
  | none, none => True
  | _, _ => False

theorem mirrors_pointee (hrec : ∀ t, Skims t (rec t) (rec' t)) (t : Ty) (tag : Int) :
    Mirrors savedTypes (SameObject t) (C.deserializePointee rec t tag) (C.skimPointee rec' t tag) := by
  rw [deserializePointee_eq, skimPointee]
  cases h : C.announced t tag with
  | object d atStart =>
    refine (hrec d).bind ?_
    rintro v - hv
    exact .ite (.pure ⟨announced_object h, hv⟩) (.throw _)
  | nothing => exact .pure trivial
  | refused e => exact .throw _
  | outside => exact .throw _

theorem mirrors_new (hrec : ∀ t, Skims t (rec t) (rec' t)) (t : Ty) (tag : Int) :
    Mirrors savedTypes (fun _ _ => True) (C.deserializeAsSharedPtr rec t tag)
      (C.skimNew rec' t tag) := by
  refine (mirrors_pointee hrec t tag).bind fun object object' hobject => Mirrors.getUser.bind ?_
  rintro s _ rfl
  cases object with
  | none =>
    cases object' with
    | some d => exact hobject.elim
    | none =>
      refine .ite (.ite (.throw _) ((Mirrors.setUser ?_).bind fun _ _ _ => .pure trivial))
        (.pure trivial)
      simp [savedTypes]
  | some v =>
    cases object' with
    | none => exact hobject.elim
    | some d =>
      obtain ⟨hty, hno⟩ := savedTypes_object (C := C) hobject.1 hobject.2
      refine (Mirrors.setUser ?_).bind fun _ _ _ => .pure trivial
      by_cases hdedup : C.dedupSharedPtrs
      · simp [savedTypes, allocate, hdedup, hty, ← hno]
      · simp [savedTypes, allocate, hdedup]

theorem getSavedPtr_eq (t : Ty) (tag : Int) : C.getSavedPtr t tag =
    if C.dedupSharedPtrs then do
      let index ← getInt C.order false .w64
      let s ← (getUser : Read SavedPtrs)
      match s.saved[index.toNat]? with
      | none => Reader.throw .undefined
      | some (savedTy, a, v) => do
        ofExcept (C.recallSaved t tag (savedTy, noObject savedTy v))
        pure (savedPtr t savedTy a v)
    else Reader.throw (.system .contextMismatch) := by
  unfold getSavedPtr recallSaved
  refine if_congr Iff.rfl (bind_congr fun index => bind_congr fun s => ?_) rfl
  cases s.saved[index.toNat]? with
  | none => rfl
  | some e =>
    obtain ⟨savedTy, a, v⟩ := e
    dsimp only
    by_cases htag : -1 < tag
    · by_cases heq : C.typeTag savedTy = tag
      · cases C.typeAt tag with
        | none => simp [htag, heq]
        | some d =>
          cases C.typeAt (C.typeTag t) with
          | none => simp [htag, heq]
          | some h =>
            by_cases hbase : C.isBaseOf h d
            · by_cases hoff : C.offset d h = 0 ∨ noObject savedTy v <;>
                simp [htag, heq, hbase, hoff]
            · simp [htag, heq, hbase]
      · simp [htag, heq]
    · by_cases hsame : savedTy.same t <;> simp [htag, hsame]

theorem mirrors_saved (t : Ty) (tag : Int) :
    Mirrors savedTypes (fun _ _ => True) (C.getSavedPtr t tag) (C.skimSaved t tag) := by
  rw [getSavedPtr_eq]
  refine .ite (Mirrors.bind ((leaf_getInt C.order false .w64).mirrors savedTypes) ?_) (.throw _)
  rintro index _ rfl
  refine Mirrors.getUser.bind ?_
  rintro s _ rfl
  rw [savedTypes, List.getElem?_map]
  cases s.saved[index.toNat]? with
  | none => exact .throw _
  | some e => exact (Mirrors.ofExcept _).bind fun _ _ _ => .pure trivial

theorem mirrors_leaf {α : Type} {p : ∀ σ : Type, Istream σ α} (h : IsLeaf p) {g : α → Val}
    (hg : ∀ a, IsA t (g a)) :
    Skims t (do let a ← p SavedPtrs; pure (g a)) (do let _ ← p (List (Ty × Bool)); pure ()) :=
  (h.mirrors savedTypes).bind fun a _ _ => .pure (hg a)

theorem mirrors_null : Mirrors savedTypes (fun _ _ => True)
    (do let _ ← get eof; pure .null : Read Val) (do let _ ← get eof; pure ()) :=
  (Mirrors.get eof).bind fun _ _ _ => .pure trivial

theorem mirrors_tag : Mirrors savedTypes Eq C.readTypeTag C.skimTypeTag := by
  refine ((leaf_readArrayHeader C.order).mirrors savedTypes).bind ?_
  rintro n _ rfl
  exact .ite ((leaf_getInt C.order true .w32).mirrors savedTypes) (.throw _)

theorem mirrors_unique (hrec : ∀ t, Skims t (rec t) (rec' t)) (t : Ty) :
    Mirrors savedTypes (fun _ _ => True) (C.readAsUniquePtr rec t) (C.skimUniquePtr rec' t) := by
  refine mirrors_tag.bind ?_
  rintro tag _ rfl
  refine (Mirrors.peek eof).bind ?_
  rintro code _ rfl
  refine .ite mirrors_null ((mirrors_pointee hrec t tag).bind ?_)
  rintro (_ | v) _ -
  · exact .pure trivial
  · exact .pure trivial

theorem mirrors_shared (hrec : ∀ t, Skims t (rec t) (rec' t)) (t : Ty) :
    Mirrors savedTypes (fun _ _ => True) (C.readAsSharedPtr rec t) (C.skimSharedPtr rec' t) := by
  refine mirrors_tag.bind ?_
  rintro tag _ rfl
  refine (Mirrors.peek eof).bind ?_
  rintro code _ rfl
  exact .ite mirrors_null (.ite (mirrors_saved t tag) (mirrors_new hrec t tag))

theorem mirrors_container (hrec : ∀ t, Skims t (rec t) (rec' t))
    (add : Val → List Val → List Val) (t : Ty) :
    Mirrors savedTypes (fun _ _ => True) (C.readContainer rec add t)
      (C.skimContainer rec' t) := by
  refine ((leaf_readArrayHeader C.order).mirrors savedTypes).bind ?_
  rintro length _ rfl
  have hstep : ∀ (acc : List Val) (u : Unit), True → Mirrors savedTypes (fun _ _ => True)
      (do let v ← rec t; pure (add v acc)) (rec' t) := fun acc _ _ => (hrec t).wrap _ fun _ _ _ => trivial
  exact (Mirrors.loop hstep length [] () trivial).wrap _ fun _ _ _ => trivial

/-- Skimming goes where reading goes. -/
theorem mirrors_readAs (fuel : Nat) (t : Ty) : Skims t (C.readAs fuel t) (C.skim fuel t) := by
  induction fuel generalizing t with
  | zero => exact .throw _
  | succ fuel ih =>
    have hfree : ∀ {p : Read Val} {q : Skim Unit} {t : Ty}, (∀ c, t ≠ .cls c) →
        Mirrors savedTypes (fun _ _ => True) p q → Skims t p q :=
      fun hne h => h.imp fun v _ _ => isA_of_ne hne
    have hall : ∀ (ts : List Ty) (f : List Val → Val) (t : Ty), (∀ vs, IsA t (f vs)) →
        Skims t (do let vs ← each (ts.map (C.readAs fuel)); pure (f vs))
          (do let _ ← each (ts.map (C.skim fuel)); pure ()) := fun ts f t hf => by
      have hts : List.Forall₂ (Mirrors savedTypes fun _ _ => True)
          (ts.map (C.readAs fuel)) (ts.map (C.skim fuel)) := by
        rw [List.forall₂_map_left_iff, List.forall₂_map_right_iff, List.forall₂_same]
        exact fun t _ => (ih t).imp fun _ _ _ => trivial
      exact (Mirrors.each hts).bind fun vs _ _ => .pure (hf vs)
    cases t with
    | bool => exact mirrors_leaf leaf_getBool fun _ => isA_of_ne nofun
    | int sg w => exact mirrors_leaf (leaf_getInt C.order sg w) fun _ => isA_of_ne nofun
    | enum u =>
      cases u with
      | bool => exact mirrors_leaf leaf_getBool fun _ => isA_of_ne nofun
      | int sg w => exact mirrors_leaf (leaf_getInt C.order sg w) fun _ => isA_of_ne nofun
    | float => exact mirrors_leaf (leaf_getFloat C.order) fun _ => isA_of_ne nofun
    | double => exact mirrors_leaf (leaf_getDouble C.order C.widen) fun _ => isA_of_ne nofun
    | string => exact mirrors_leaf (leaf_getString C.order) fun _ => isA_of_ne nofun
    | buffer => exact mirrors_leaf (leaf_readBlob C.order) fun _ => isA_of_ne nofun
    | pair a b =>
      refine ((leaf_checkArrayHeader C.order 2).mirrors savedTypes).bind fun _ _ _ => ?_
      refine (ih a).bind fun x _ _ => (ih b).wrap _ fun y _ _ => isA_of_ne nofun
    | tuple ts =>
      refine ((leaf_checkArrayHeader C.order ts.length).mirrors savedTypes).bind fun _ _ _ => ?_
      exact hall ts _ _ fun _ => isA_of_ne nofun
    | seq k t => exact hfree nofun (mirrors_container ih _ t)
    | set k t => exact hfree nofun (mirrors_container ih _ t)
    | map k kt vt => exact hfree nofun (mirrors_container ih _ (.pair kt vt))
    | cls c =>
      refine ((leaf_readArrayHeader C.order).mirrors savedTypes).bind ?_
      rintro length _ rfl
      refine .ite (hall (C.parts c) _ _ fun vs => ?_) (.throw _)
      rintro c' ⟨⟩
      exact ⟨vs, rfl⟩
    | uniquePtr t => exact hfree nofun (mirrors_unique ih t)
    | sharedPtr t => exact hfree nofun (mirrors_shared ih t)

end Mirrored

/-! ### Going astray -/

/-- Reading over the bytes comes to a pointer that leads outside the tables or to no object. -/
def Strays (fuel : Nat) (t : Ty) (junk : Nat → Nat → UInt8) (st : Input (List (Ty × Bool))) :
    Prop :=
  ∃ e, C.skim fuel t junk st = .error e ∧ ¬ e.IsSystem ∧ e ≠ .fuel

theorem strays_iff {fuel : Nat} (t : Ty) (junk : Nat → Nat → UInt8) (st : Input SavedPtrs)
    (hfuel : st.rest.length < fuel) : C.Strays fuel t junk (st.onUser savedTypes) ↔
      ∃ e, C.readAs fuel t junk st = .error e ∧ ¬ e.IsSystem := by
  have hnever := (consumes_readAs (C := C) fuel t).never junk st hfuel
  rcases mirrors_readAs (C := C) fuel t junk st with ⟨e, hread, hskim⟩ | ⟨v, u, st', hread, hskim, -⟩
  · have hfuel : e ≠ .fuel := by
      rintro rfl
      exact hnever hread
    simp [Strays, hread, hskim, hfuel]
  · simp [Strays, hread, hskim]

/-- With more levels of recursion than there are bytes, a value is read or refused exactly if
reading over its bytes does not go astray. -/
theorem readAs_settles_iff {fuel : Nat} (t : Ty) (junk : Nat → Nat → UInt8)
    (st : Input SavedPtrs) (hfuel : st.rest.length < fuel) :
    ((∃ v st', C.readAs fuel t junk st = .ok (v, st')) ∨
      ∃ e, C.readAs fuel t junk st = .error (.system e)) ↔
      ¬ C.Strays fuel t junk (st.onUser savedTypes) := by
  rw [C.strays_iff t junk st hfuel]
  cases C.readAs fuel t junk st with
  | error e => simp [Fault.IsSystem]
  | ok x => exact iff_of_true (.inl ⟨x.1, x.2, rfl⟩) (by simp)

/-- An object without members behind a tag. -/
theorem readAs_settles_object : ¬ starContext.Strays 4 (.sharedPtr (.cls 0)) (fun _ _ => 0)
    (Input.onUser savedTypes ⟨0, [0x92, 0x00, 0x90], 0, {}⟩) :=
  (starContext.readAs_settles_iff (.sharedPtr (.cls 0)) (fun _ _ => 0)
    ⟨0, [0x92, 0x00, 0x90], 0, {}⟩ (by decide)).mp (.inl ⟨_, _, rfl⟩)

/-- The number of a saved pointer on a stream without any, and the tags `5` and `-2` in a context
of two classes. -/
theorem readAs_strays : ¬ ∃ x ∈ [(Ty.sharedPtr (.cls 0), [0x92, 0x00, 0x00]),
      (.sharedPtr (.cls 0), [0x92, 0x05, 0x90]), (.sharedPtr (.cls 0), [0x92, 0xfe, 0x90]),
      (.uniquePtr (.cls 0), [0x92, 0x05, 0x90]), (.uniquePtr (.cls 0), [0x92, 0xfe, 0x90])],
    (∃ v st', starContext.readAs 4 x.1 (fun _ _ => 0) ⟨0, x.2, 0, {}⟩ = .ok (v, st')) ∨
      ∃ e, starContext.readAs 4 x.1 (fun _ _ => 0) ⟨0, x.2, 0, {}⟩ = .error (.system e) := by
  have hundefined : ∀ {r : Except Fault (Val × Input SavedPtrs)}, r = .error .undefined →
      ¬ ((∃ v st', r = .ok (v, st')) ∨ ∃ e, r = .error (.system e)) := by
    rintro r rfl
    simp
  rintro ⟨x, hx, h⟩
  revert x
  simp only [List.forall_mem_cons]
  exact ⟨hundefined rfl, hundefined rfl, hundefined rfl, hundefined rfl, hundefined rfl, by simp⟩

end Context

end Nodeoze.Bstream
