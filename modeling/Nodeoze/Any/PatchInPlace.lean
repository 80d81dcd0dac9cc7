import Nodeoze.Any.Patch

/-!
# What a patch leaves behind when it fails

`any::patch` carries its operations out in the document itself, one after the other, and there is no way
back.  `applyTo` is `any::apply` with the document as a state that stays as it is where the operation stops:
a `move` erases its source before it looks at where to put it.

An operation that returns an error has changed nothing, so a patch that returns an error leaves behind what
the operations before the failing one have made.
-/

namespace Nodeoze.Any

/-- Code that changes a document, and may stop in the middle. -/
abbrev Doc := EStateM Failure Any

/-- `if ( add )` -/
def insertTo (found : Found) (place : List Sel) (value : Any) : Doc Unit := do
  let t ← get
  let t' ← ofExcept (insertAt t found place value)
  set t'

/-- `any::apply` -/
def applyTo (patch : Any) : Doc Unit := do
  let t ← get
  let op := decodePatchOperation (patch.member (text "op"))
  let value := patch.member (text "value")
  ofExcept (check (decide (op ≠ .invalid)))
  match patch.member (text "path") with
  | .string path =>
    match op with
    | .test => ofExcept (check (find t path).valid)
    | op =>
      if path.isEmpty then
        match op with
        | .remove => set Any.null
        | .replace | .add => do
          ofExcept (check (!value.isNull))
          set value
        | _ => pure ()
      else
        let found := find t path
        match op with
        | .add => do
          ofExcept (check (found.valid || found.distance == 1))
          ofExcept (check found.parent.isSome)
          ofExcept (check (!value.isNull))
          insertTo found (← ofExcept (deref found.parent)) value
        | .remove => do
          ofExcept (check found.valid)
          ofExcept (check found.parent.isSome)
          let (place, sel, _) ← ofExcept (found.target t)
          set (modifyAt place (fun p => eraseChild p sel) t)
        | .replace => do
          ofExcept (check found.valid)
          ofExcept (check found.parent.isSome)
          ofExcept (check (!value.isNull))
          let (place, sel, _) ← ofExcept (found.target t)
          set (modifyAt place (fun p => setChild p sel value) t)
        | .copy =>
          match patch.member (text "from") with
          | .string from_ => do
            ofExcept (check (found.valid || found.distance == 1))
            let source := find t from_
            ofExcept (check source.valid)
            let (_, _, copied) ← ofExcept (source.target t)
            insertTo found (← ofExcept (deref found.parent)) copied
          | _ => throw .invalidArgument
        | .move =>
          match patch.member (text "from") with
          | .string from_ => do
            ofExcept (check (found.valid || found.distance == 1))
            let source := find t from_
            ofExcept (check source.valid)
            let (place, sel, moved) ← ofExcept (source.target t)
            set (modifyAt place (fun p => eraseChild p sel) t)
            let parent ← ofExcept (deref found.parent)
            if found.valid && found.parent == some place && found.child == some sel
                && !((getAt place t).map isArray == some true) then
              throw .undefined
            insertTo found (← ofExcept (deref (survives t place sel parent))) moved
          | _ => throw .invalidArgument
        | _ => pure ()
  | _ => throw .invalidArgument

/-- The loop of `patch`. -/
def patchTo : List Any → Doc Unit
  | [] => pure ()
  | p :: patches => do
    applyTo p
    patchTo patches

/-- `any::patch` -/
def patchIn : Any → Doc Unit
  | .array patches => patchTo patches
  | _ => throw .invalidArgument

/-! ## The two models of `apply` -/

/-- The run from `s` ends as `result` says, and has changed nothing when it returns an error. -/
def Tracks (t s : Any) (x : Doc Unit) (result : Except Failure Any) : Prop :=
  match result with
  | .ok t' => x.run s = .ok () t'
  | .error e => ∃ t', x.run s = .error e t' ∧ (e = .invalidArgument → t' = t)

section

variable {α : Type} {t s : Any}

theorem tracks_bind {e : Except Failure α} {f : α → Doc Unit} {g : α → Except Failure Any}
    (herr : e = .error .invalidArgument → s = t) (h : ∀ a, e = .ok a → Tracks t s (f a) (g a)) :
    Tracks t s (ofExcept e >>= f) (e >>= g) := by
  cases e with
  | ok a => exact h a rfl
  | error err => exact ⟨s, rfl, fun herr' => herr (by rw [herr'])⟩

theorem tracks_check {b : Bool} {x : Doc Unit} {result : Except Failure Any}
    (h : b = true → Tracks t t x result) :
    Tracks t t (ofExcept (check b) >>= fun _ => x) (check b >>= fun _ => result) := by
  apply tracks_bind fun _ => rfl
  intro _ hb
  apply h
  rw [check] at hb
  split at hb
  · assumption
  · contradiction

theorem deref_ne {o : Option α} : deref o ≠ .error .invalidArgument := by
  cases o <;> simp [deref]

/-- To put a value somewhere is never refused. -/
theorem insertAt_ne (t : Any) (f : Found) (place : List Sel) (value : Any) :
    insertAt t f place value ≠ .error .invalidArgument := by
  intro h
  unfold insertAt at h
  cases hparent : getAt place t with
  | none => simp [hparent, deref, bind, Except.bind] at h
  | some parent =>
    simp only [hparent, deref, bind, Except.bind] at h
    split at h
    · split at h
      · contradiction
      split at h
      · cases h
      split at h
      · contradiction
      · cases h
    · split at h
      · cases hchild : f.child with
        | none => simp [hchild] at h
        | some sel =>
          rw [hchild] at h
          contradiction
      · contradiction
    · contradiction

theorem tracks_get {f : Any → Doc Unit} {result : Except Failure Any} (h : Tracks t s (f s) result) :
    Tracks t s (get >>= f) result := h

theorem tracks_set {t' : Any} {x : Doc Unit} {result : Except Failure Any}
    (h : Tracks t t' x result) : Tracks t s (set t' >>= fun _ => x) result := h

theorem tracks_insert {found : Found} {o : Option (List Sel)} {value : Any} :
    Tracks t s (do insertTo found (← ofExcept (deref o)) value)
      (do insertAt s found (← deref o) value) := by
  apply tracks_bind fun h => absurd h deref_ne
  intro place _
  apply tracks_get
  have hne := insertAt_ne s found place value
  cases hinsert : insertAt s found place value with
  | ok t' => rfl
  | error e =>
    refine ⟨s, rfl, fun he => ?_⟩
    rw [hinsert, he] at hne
    contradiction

end

theorem tracks_target {f : Found} {x : List Sel × Sel × Any → Doc Unit}
    {g : List Sel × Sel × Any → Except Failure Any}
    (h : ∀ target, f.target t = .ok target → Tracks t t (x target) (g target)) :
    Tracks t t (ofExcept (f.target t) >>= x) (f.target t >>= g) :=
  tracks_bind (fun _ => rfl) h

/-- `apply` is `applyTo`, and an error leaves the document as it was. -/
theorem tracks_apply (t patch : Any) : Tracks t t (applyTo patch) (apply t patch) := by
  unfold applyTo apply
  apply tracks_get
  apply tracks_check
  intro _
  cases patch.member (text "path") with
  | string path =>
    cases decodePatchOperation (patch.member (text "op")) with
    | test =>
      simp only
      cases hfind : (find t path).valid with
      | true => rfl
      | false => exact ⟨t, rfl, fun _ => rfl⟩
    | add =>
      simp only
      split
      · apply tracks_check
        intro _
        rfl
      apply tracks_check
      intro _
      apply tracks_check
      intro _
      apply tracks_check
      intro _
      exact tracks_insert
    | remove =>
      simp only
      split
      · rfl
      apply tracks_check
      intro _
      apply tracks_check
      intro _
      apply tracks_target
      intro target _
      rfl
    | replace =>
      simp only
      split
      · apply tracks_check
        intro _
        rfl
      apply tracks_check
      intro _
      apply tracks_check
      intro _
      apply tracks_check
      intro _
      apply tracks_target
      intro target _
      rfl
    | copy =>
      simp only
      split
      · rfl
      cases patch.member (text "from") with
      | string from_ =>
        apply tracks_check
        intro _
        apply tracks_check
        intro _
        apply tracks_target
        intro target _
        exact tracks_insert
      | _ => exact ⟨t, rfl, fun _ => rfl⟩
    | move =>
      simp only
      split
      · rfl
      cases patch.member (text "from") with
      | string from_ =>
        apply tracks_check
        intro _
        apply tracks_check
        intro _
        apply tracks_target
        intro target _
        apply tracks_set
        apply tracks_bind fun h => absurd h deref_ne
        intro parent _
        split
        · exact ⟨_, rfl, by intro h; contradiction⟩
        · exact tracks_insert
      | _ => exact ⟨t, rfl, fun _ => rfl⟩
    | invalid =>
      simp only
      split
      · rfl
      · rfl
  | _ => exact ⟨t, rfl, fun _ => rfl⟩

/-! ## A whole patch -/

theorem applyTo_error {t t' patch : Any} (h : (applyTo patch).run t = .error .invalidArgument t') :
    t' = t ∧ apply t patch = .error .invalidArgument := by
  have htracks := tracks_apply t patch
  cases hresult : apply t patch with
  | ok u =>
    rw [hresult] at htracks
    cases h.symm.trans htracks
  | error e =>
    rw [hresult] at htracks
    obtain ⟨u, hu, hkeep⟩ := htracks
    cases h.symm.trans hu
    exact ⟨hkeep rfl, rfl⟩

theorem patchTo_cons_ok {p : Any} {patches : List Any} {t t' : Any}
    (hp : (applyTo p).run t = .ok () t') :
    (patchTo (p :: patches)).run t = (patchTo patches).run t' := by
  simp [patchTo, EStateM.run_bind, hp]

theorem patchTo_cons_error {p : Any} {patches : List Any} {t t' : Any} {e : Failure}
    (hp : (applyTo p).run t = .error e t') :
    (patchTo (p :: patches)).run t = .error e t' := by
  simp [patchTo, EStateM.run_bind, hp]

theorem applyTo_ok {t t' patch : Any} (h : apply t patch = .ok t') : (applyTo patch).run t = .ok () t' := by
  have htracks := tracks_apply t patch
  rwa [h] at htracks

/-- The loop of `patch` that keeps the last value returns what the loop that changes the document does. -/
theorem tracks_patchAll (patches : List Any) (t : Any) :
    match patchAll t patches with
    | (t', none) => (patchTo patches).run t = .ok () t'
    | (t', some e) => ∃ u, (patchTo patches).run t = .error e u ∧ (e = .invalidArgument → u = t') := by
  induction patches generalizing t with
  | nil => rfl
  | cons p patches ih =>
    rw [patchAll]
    cases hp : apply t p with
    | ok t' =>
      rw [patchTo_cons_ok (applyTo_ok hp)]
      exact ih t'
    | error e =>
      have htracks := tracks_apply t p
      rw [hp] at htracks
      obtain ⟨u, hu, hkeep⟩ := htracks
      exact ⟨u, patchTo_cons_error hu, hkeep⟩

theorem patchTo_error {patches : List Any} {t t' : Any}
    (h : (patchTo patches).run t = .error .invalidArgument t') :
    ∃ done op rest, patches = done ++ op :: rest ∧ (patchTo done).run t = .ok () t' ∧
      (applyTo op).run t' = .error .invalidArgument t' := by
  induction patches generalizing t with
  | nil => cases h
  | cons p patches ih =>
    cases hp : (applyTo p).run t with
    | ok u s =>
      rw [patchTo_cons_ok hp] at h
      obtain ⟨done, op, rest, rfl, hdone, hop⟩ := ih h
      refine ⟨p :: done, op, rest, rfl, ?_, hop⟩
      rw [patchTo_cons_ok hp, hdone]
    | error e s =>
      rw [patchTo_cons_error hp] at h
      obtain ⟨rfl, rfl⟩ := EStateM.Result.error.inj h
      obtain ⟨rfl, -⟩ := applyTo_error hp
      exact ⟨[], p, patches, rfl, rfl, hp⟩

/-- A patch that returns an error leaves what the operations before the failing one have made, and that one
has changed nothing. -/
theorem patch_error_keeps (d p d' : Any) (h : (patchIn p).run d = .error .invalidArgument d') :
    (p.isArray = false ∧ d' = d) ∨
      ∃ done op rest, p = .array (done ++ op :: rest) ∧ (patchTo done).run d = .ok () d' ∧
        (applyTo op).run d' = .error .invalidArgument d' := by
  cases p with
  | array patches =>
    obtain ⟨done, op, rest, rfl, hdone, hop⟩ := patchTo_error h
    exact .inr ⟨done, op, rest, rfl, hdone, hop⟩
  | _ =>
    obtain ⟨-, rfl⟩ := EStateM.Result.error.inj h
    exact .inl ⟨rfl, rfl⟩

/-- A member is added, and then an operation is not known. -/
def halfKnown : List Any :=
  [.object [(text "op", .string (text "add")), (text "path", .string (text "/a")),
      (text "value", .boolean true)],
    .object [(text "op", .string (text "swap")), (text "path", .string (text "/a"))]]

theorem halfKnown_run :
    (patchIn (.array halfKnown)).run (.object [])
      = .error .invalidArgument (.object [(text "a", .boolean true)]) := rfl

theorem halfKnown_keeps :
    ∃ done op rest, halfKnown = done ++ op :: rest ∧
      (patchTo done).run (.object []) = .ok () (.object [(text "a", .boolean true)]) := by
  rcases patch_error_keeps _ _ _ halfKnown_run with ⟨hnot, -⟩ | ⟨done, op, rest, heq, hdone, -⟩
  · contradiction
  · exact ⟨done, op, rest, Any.array.inj heq, hdone⟩

theorem patch_not_undone :
    ¬∀ d p d' : Any, (patchIn p).run d = .error .invalidArgument d' → d' = d := by
  intro hall
  have heq := hall _ _ _ halfKnown_run
  injection heq with heq
  contradiction

end Nodeoze.Any
