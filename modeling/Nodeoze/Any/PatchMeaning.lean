import Nodeoze.Any.DiffPatch
import Nodeoze.Any.PatchInPlace
import Nodeoze.Any.Resolve

/-!
# What the operations of a patch mean

An operation works on documents and paths: it adds a value under the last token of a path, removes or
replaces what a path leads to, copies or moves from one path to another, or tests for a value.  A move is
the removal of its source and the addition of what was there, in what the removal leaves.

`any::apply` makes its checks, and then works with what `find` returned.  `apply_right_iff` says when that is
what the operation means, without an exception and without an iterator or a pointer that is not there.
-/

namespace Nodeoze.Any

/-! ## The operations -/

inductive Operation
  | add (path : List Key) (value : Any)
  | remove (path : List Key)
  | replace (path : List Key) (value : Any)
  | copy (source path : List Key)
  | move (source path : List Key)
  | test (path : List Key) (value : Any)

/-- The value that a path leads to. -/
def valueAt (path : List Key) (d : Any) : Option Any :=
  match resolve path d with
  | some (.value place) => getAt place d
  | _ => none

def putMember (ms : List (Key × Any)) (k : Key) (v : Any) : List (Key × Any) :=
  if (ms.lookup k).isSome then setMember ms k v else ms ++ [(k, v)]

/-- A container with a value under a token. -/
def addTo (token : Key) (v : Any) : Any → Option Any
  | .array xs =>
    if token = dash then some (.array (xs ++ [v]))
    else (decimalIndex token).bind fun n =>
      if n ≤ xs.length then some (.array (xs.insertIdx n v)) else none
  | .object ms => some (.object (putMember ms token v))
  | _ => none

def changeAt (place : List Sel) (f : Any → Option Any) (d : Any) : Option Any :=
  (getAt place d).bind fun x => (f x).map fun y => modifyAt place (fun _ => y) d

def added (path : List Key) (v d : Any) : Option Any :=
  match path.getLast? with
  | none => some v
  | some token =>
    match resolve path.dropLast d with
    | some (.value place) => changeAt place (addTo token v) d
    | _ => none

/-- A document that is removed as a whole is null. -/
def removed (path : List Key) (d : Any) : Option Any :=
  match resolve path d with
  | some (.value place) =>
    match place.getLast? with
    | none => some .null
    | some sel => some (modifyAt place.dropLast (fun x => eraseChild x sel) d)
  | _ => none

def replaced (path : List Key) (v d : Any) : Option Any :=
  match resolve path d with
  | some (.value place) => some (modifyAt place (fun _ => v) d)
  | _ => none

namespace Operation

def perform (d : Any) : Operation → Option Any
  | .add path v => added path v d
  | .remove path => removed path d
  | .replace path v => replaced path v d
  | .copy source path => (valueAt source d).bind fun v => added path v d
  | .move source path =>
    if source <+: path ∧ source ≠ path then none
    else (valueAt source d).bind fun v => (removed source d).bind fun d' => added path v d'
  | .test path v => (valueAt path d).bind fun w => if w.equals v then some d else none

end Operation

/-- A member of a patch, which may be missing. -/
def member? : Any → Key → Option Any
  | .object ms, k => ms.lookup k
  | _, _ => none

/-- The operation that a patch is the text of. -/
inductive Names (patch : Any) : Operation → Prop
  | add {path : List Key} {v : Any} : member? patch (text "op") = some (.string (text "add")) →
      member? patch (text "path") = some (.string (pointer path)) →
      member? patch (text "value") = some v → Names patch (.add path v)
  | remove {path : List Key} : member? patch (text "op") = some (.string (text "remove")) →
      member? patch (text "path") = some (.string (pointer path)) → Names patch (.remove path)
  | replace {path : List Key} {v : Any} : member? patch (text "op") = some (.string (text "replace")) →
      member? patch (text "path") = some (.string (pointer path)) →
      member? patch (text "value") = some v → Names patch (.replace path v)
  | copy {source path : List Key} : member? patch (text "op") = some (.string (text "copy")) →
      member? patch (text "path") = some (.string (pointer path)) →
      member? patch (text "from") = some (.string (pointer source)) → Names patch (.copy source path)
  | move {source path : List Key} : member? patch (text "op") = some (.string (text "move")) →
      member? patch (text "path") = some (.string (pointer path)) →
      member? patch (text "from") = some (.string (pointer source)) → Names patch (.move source path)
  | test {path : List Key} {v : Any} : member? patch (text "op") = some (.string (text "test")) →
      member? patch (text "path") = some (.string (pointer path)) →
      member? patch (text "value") = some v → Names patch (.test path v)

/-! ## What `apply` looks at -/

/-- `find` points to what the path leads to. -/
def Pointed (d : Any) (path : List Key) : Prop := (find d (pointer path)).designated = resolve path d

/-- The parent that `find` sets is what the tokens before the last lead to. -/
def Parented (d : Any) (path : List Key) : Prop :=
  path = [] ∨ ∃ init token place, path = init ++ [token] ∧ resolve init d = some (.value place) ∧
    (find d (pointer path)).parent = some place

/-- The parent that `find` sets is, when the source has been erased, what the tokens before the last lead to
then. -/
def ParentedBehind (d : Any) (source path : List Key) : Prop :=
  path = [] ∨ ∃ place sel init token P P', resolve source d = some (.value (place ++ [sel])) ∧
    path = init ++ [token] ∧ (find d (pointer path)).parent = some P ∧ survives d place sel P = some P' ∧
    resolve init (modifyAt place (fun x => eraseChild x sel) d) = some (.value P')

/-- `apply` works at the places that the paths of the operation name. -/
def Operation.Placed (d : Any) : Operation → Prop
  | .add path _ => Parented d path
  | .remove path => Pointed d path
  | .replace path _ => Pointed d path
  | .copy source path => Pointed d source ∧ Parented d path
  | .move source path => Pointed d source ∧ ParentedBehind d source path
  | .test _ _ => True

/-- `apply` returns an error, or it performs the operation that the patch names, where that is to be. -/
def AppliesRight (d patch : Any) : Prop :=
  match apply d patch with
  | .error .invalidArgument => True
  | .error _ => False
  | .ok d' => ∃ o, Names patch o ∧ o.perform d = some d' ∧ o.Placed d

/-! ## When that is so -/

/-- The checks of `apply`. -/
def checked (d patch : Any) : Bool :=
  match patch.member (text "path") with
  | .string path =>
    match decodePatchOperation (patch.member (text "op")) with
    | .invalid => false
    | .test => (find d path).valid
    | .remove => path.isEmpty || ((find d path).valid && (find d path).parent.isSome)
    | .replace =>
      (path.isEmpty || ((find d path).valid && (find d path).parent.isSome)) &&
        !(patch.member (text "value")).isNull
    | .add =>
      (path.isEmpty || (((find d path).valid || (find d path).distance == 1)
        && (find d path).parent.isSome)) && !(patch.member (text "value")).isNull
    | .copy | .move =>
      path.isEmpty ||
        match patch.member (text "from") with
        | .string source => ((find d path).valid || (find d path).distance == 1) && (find d source).valid
        | _ => false
  | _ => false

/-- What `apply` does behind the checks of a move to a place that is not the whole document. -/
def moveEffect (d : Any) (source path : Key) : Except Failure Any := do
  let (place, sel, moved) ← (find d source).target d
  let parent ← deref (find d path).parent
  if (find d path).valid && (find d path).parent == some place && (find d path).child == some sel
      && !((getAt place d).map isArray == some true) then
    throw .undefined
  insertAt (modifyAt place (fun p => eraseChild p sel) d) (find d path)
    (← deref (survives d place sel parent)) moved

/-- What `apply` does behind its checks. -/
def effect (d patch : Any) : Except Failure Any :=
  match patch.member (text "path") with
  | .string path =>
    let value := patch.member (text "value")
    let found := find d path
    match decodePatchOperation (patch.member (text "op")) with
    | .remove =>
      if path.isEmpty then pure .null
      else do
        let (place, sel, _) ← found.target d
        pure (modifyAt place (fun p => eraseChild p sel) d)
    | .replace =>
      if path.isEmpty then pure value
      else do
        let (place, sel, _) ← found.target d
        pure (modifyAt place (fun p => setChild p sel value) d)
    | .add =>
      if path.isEmpty then pure value
      else do insertAt d found (← deref found.parent) value
    | .copy =>
      match path.isEmpty, patch.member (text "from") with
      | false, .string source => do
        let (_, _, copied) ← (find d source).target d
        insertAt d found (← deref found.parent) copied
      | _, _ => pure d
    | .move =>
      match path.isEmpty, patch.member (text "from") with
      | false, .string source => moveEffect d source path
      | _, _ => pure d
    | _ => pure d
  | _ => pure d

/-- A value can be put under a token: behind the elements of an array or at one of their indices, which
fits an `int`, or into an object that has the member, or where the token is also the first of the path. -/
def TakesToken (f : Found) (token : Key) : Any → Prop
  | .array xs => token = dash ∨ ∃ n, token = decimal n ∧ n ≤ xs.length ∧ n < 2 ^ 31
  | .object _ => f.valid = true ∨ f.tokens.head? = some token
  | _ => False

def Fits (d : Any) (path : List Key) : Prop :=
  ∃ init token place x, path = init ++ [token] ∧ resolve init d = some (.value place) ∧
    Legible path place ∧ getAt place d = some x ∧ TakesToken (find d (pointer path)) token x

/-- A path leads to a value, and can be read. -/
def Leads (d : Any) (path : List Key) (place : List Sel) : Prop :=
  resolve path d = some (.value place) ∧ Legible path place

/-- The source is not what the target is or is in, the parent of the target is still there when the source is
erased, is then where the path leads, and takes the value. -/
def FitsMoved (d : Any) (source path : List Key) : Prop :=
  ∃ place sel init token P P' x, Leads d source (place ++ [sel]) ∧ path = init ++ [token] ∧
    ¬(source <+: path ∧ source ≠ path) ∧ (find d (pointer path)).parent = some P ∧
    survives d place sel P = some P' ∧
    resolve init (modifyAt place (fun x => eraseChild x sel) d) = some (.value P') ∧
    getAt P' (modifyAt place (fun x => eraseChild x sel) d) = some x ∧
    (P = place → sel ≠ .member token) ∧ TakesToken (find d (pointer path)) token x

def Operation.Sound (d : Any) : Operation → Prop
  | .add path _ => path = [] ∨ Fits d path
  | .remove path => ∃ place, Leads d path place
  | .replace path _ => ∃ place, Leads d path place
  | .copy source path =>
    (source = [] ∧ path = []) ∨ (source ≠ [] ∧ (∃ place, Leads d source place) ∧ Fits d path)
  | .move source path => (source = [] ∧ path = []) ∨ FitsMoved d source path
  | .test path v => ∃ w, valueAt path d = some w ∧ w.equals v = true

/-! ## Changes in a tree -/

theorem lookup_setMember (ms : List (Key × Any)) (k : Key) (v : Any) (k' : Key) (hne : k' ≠ k) :
    (setMember ms k v).lookup k' = ms.lookup k' := by
  induction ms with
  | nil => rfl
  | cons m ms ih =>
    obtain ⟨j, w⟩ := m
    rw [setMember]
    split
    · next hj =>
      have hj' : (k' == j) = false := by rw [hj]; exact beq_eq_false_iff_ne.mpr hne
      rw [List.lookup_cons, List.lookup_cons, hj']
    · rw [List.lookup_cons, List.lookup_cons, ih]

theorem lookup_eraseMember (ms : List (Key × Any)) (k k' : Key) (hne : k' ≠ k) :
    (eraseMember ms k).lookup k' = ms.lookup k' := by
  induction ms with
  | nil => rfl
  | cons m ms ih =>
    obtain ⟨j, w⟩ := m
    rw [eraseMember]
    split
    · next hj =>
      have hj' : (k' == j) = false := by rw [hj]; exact beq_eq_false_iff_ne.mpr hne
      rw [List.lookup_cons, hj']
    · rw [List.lookup_cons, List.lookup_cons, ih]

theorem child?_setChild_ne {t v : Any} {s s' : Sel} (hne : s' ≠ s) :
    child? (setChild t s v) s' = child? t s' := by
  cases t with
  | array xs =>
    cases s with
    | member k => rfl
    | elem n =>
      cases s' with
      | member k => rfl
      | elem m =>
        have hm : n ≠ m := fun h => hne (by rw [h])
        exact List.getElem?_set_ne hm
  | object ms =>
    cases s with
    | elem n => rfl
    | member k =>
      cases s' with
      | elem m => rfl
      | member k' => exact lookup_setMember ms k v k' fun h => hne (by rw [h])
  | _ => rfl

/-- What is at a place that the change is in. -/
theorem getAt_modifyAt_under {P : List Sel} {d x : Any} (h : getAt P d = some x) (Q : List Sel)
    (f : Any → Any) : getAt P (modifyAt (P ++ Q) f d) = some (modifyAt Q f x) := by
  induction P generalizing d with
  | nil =>
    obtain rfl := Option.some.inj h
    rfl
  | cons s P ih =>
    obtain ⟨c, hc, hrest⟩ := Option.bind_eq_some_iff.mp h
    simp only [List.cons_append, modifyAt, hc, getAt]
    rw [child?_setChild hc, Option.bind_some, ih hrest]

theorem getAt_modifyAt {P : List Sel} {d x : Any} (h : getAt P d = some x) (f : Any → Any) :
    getAt P (modifyAt P f d) = some (f x) := by
  have hunder := getAt_modifyAt_under h [] f
  rwa [List.append_nil] at hunder

/-- What is beside the change is as it was. -/
theorem getAt_modifyAt_beside {P place : List Sel} (hP : ¬P <+: place) (hplace : ¬place <+: P) (d : Any)
    (f : Any → Any) : getAt P (modifyAt place f d) = getAt P d := by
  induction P generalizing place d with
  | nil => exact absurd List.nil_prefix hP
  | cons s P ih =>
    cases place with
    | nil => exact absurd List.nil_prefix hplace
    | cons s' place =>
      rw [modifyAt]
      cases hc : child? d s' with
      | none => rfl
      | some c =>
        simp only [getAt]
        by_cases hs : s = s'
        · subst hs
          rw [child?_setChild hc, hc, Option.bind_some, Option.bind_some]
          apply ih
          · intro h
            exact hP (List.cons_prefix_cons.mpr ⟨rfl, h⟩)
          · intro h
            exact hplace (List.cons_prefix_cons.mpr ⟨rfl, h⟩)
        · rw [child?_setChild_ne hs]

/-- A value is larger than what is in it. -/
theorem sizeOf_getAt {place : List Sel} {d x : Any} (h : getAt place d = some x) :
    sizeOf x + place.length ≤ sizeOf d := by
  induction place generalizing d with
  | nil =>
    obtain rfl := Option.some.inj h
    exact Nat.le_refl _
  | cons s place ih =>
    obtain ⟨c, hc, hrest⟩ := Option.bind_eq_some_iff.mp h
    have hle := ih hrest
    have hlt : sizeOf c < sizeOf d := by
      unfold child? at hc
      split at hc
      · have hmem := List.sizeOf_lt_of_mem (List.mem_of_getElem? hc)
        simp only [Any.array.sizeOf_spec]
        omega
      · have hmem := List.sizeOf_lt_of_mem (mem_of_lookup hc)
        simp only [Any.object.sizeOf_spec, Prod.mk.sizeOf_spec] at hmem ⊢
        omega
      · contradiction
    rw [List.length_cons]
    omega

/-! ## What `find` returns -/

/-- `find` stops at a token that it has reached from the parent, and that is the last one if there is a
child. -/
theorem seek_stops (tokens : List Key) {rest : List Key} (hrest : rest ≠ []) (index : Nat) (t : Any)
    (place : List Sel) :
    ∃ k u Q x, rest[k]? = some u ∧ getAt Q t = some x ∧
      seek tokens rest index t place = seek tokens [u] (index + k) x (place ++ Q) ∧
      ((seek tokens rest index t place).child = none ∨ k + 1 = rest.length) := by
  induction rest generalizing index t place with
  | nil => exact absurd rfl hrest
  | cons u rest ih =>
    have hhere : seek tokens (u :: rest) index t place = seek tokens [u] index t place →
        (seek tokens (u :: rest) index t place).child = none ∨ rest = [] →
        ∃ k v Q x, (u :: rest)[k]? = some v ∧ getAt Q t = some x ∧
          seek tokens (u :: rest) index t place = seek tokens [v] (index + k) x (place ++ Q) ∧
          ((seek tokens (u :: rest) index t place).child = none ∨ k + 1 = (u :: rest).length) := by
      intro heq hlast
      refine ⟨0, u, [], t, rfl, rfl, by rw [List.append_nil]; exact heq, ?_⟩
      rcases hlast with h | rfl
      · exact .inl h
      · exact .inr rfl
    have hdeeper : ∀ (s : Sel) (c : Any), rest ≠ [] → child? t s = some c →
        seek tokens (u :: rest) index t place = seek tokens rest (index + 1) c (place ++ [s]) →
        ∃ k v Q x, (u :: rest)[k]? = some v ∧ getAt Q t = some x ∧
          seek tokens (u :: rest) index t place = seek tokens [v] (index + k) x (place ++ Q) ∧
          ((seek tokens (u :: rest) index t place).child = none ∨ k + 1 = (u :: rest).length) := by
      intro s c hne hc heq
      obtain ⟨k, v, Q, x, hv, hx, hseek, hlast⟩ := ih hne (index + 1) c (place ++ [s])
      refine ⟨k + 1, v, s :: Q, x, hv, ?_, ?_, ?_⟩
      · rw [getAt, hc, Option.bind_some, hx]
      · rw [heq, hseek, List.append_assoc, Nat.add_assoc, Nat.add_comm 1]
        rfl
      · rw [heq, List.length_cons]
        exact hlast.imp_right fun h => by omega
    by_cases hempty : rest = []
    · subst hempty
      exact hhere rfl (.inr rfl)
    have hmore : rest.isEmpty = false := by simpa using hempty
    cases t with
    | array xs =>
      by_cases hdash : unescape u = dash
      · apply hhere
        · simp only [seek, if_pos hdash]
        · left
          simp only [seek, if_pos hdash]
      cases hi : stoi (unescape u) with
      | none =>
        apply hhere
        · simp only [seek, if_neg hdash, hi]
        · left
          simp only [seek, if_neg hdash, hi]
      | some i =>
        cases hx : xs[(i % 2 ^ 32).toNat]? with
        | none =>
          apply hhere
          · simp only [seek, if_neg hdash, hi, hx]
          · left
            simp only [seek, if_neg hdash, hi, hx]
        | some x =>
          have hc : child? (.array xs) (.elem (i % 2 ^ 32).toNat) = some x := hx
          apply hdeeper _ x hempty hc
          simp only [seek, if_neg hdash, hi, hx, hmore]
          rfl
    | object ms =>
      cases hv : ms.lookup (unescape u) with
      | none =>
        apply hhere
        · simp only [seek, hv]
        · left
          simp only [seek, hv]
      | some v =>
        apply hdeeper (.member (unescape u)) v hempty hv
        simp only [seek, hv, hmore]
        rfl
    | _ => exact hhere rfl (.inl rfl)

theorem seek_last_tokens (tokens : List Key) (u : Key) (index : Nat) (x : Any) (place : List Sel) :
    (seek tokens [u] index x place).tokens = tokens := by
  unfold seek
  split
  · split
    · rfl
    split
    · rfl
    split
    · rfl
    · rfl
  · split
    · rfl
    · rfl
  · rfl

/-- With an object for a parent: the member that is found is the one of the last token, and if none is, and
only one token is left, then there is none. -/
theorem find_in_object {d : Any} {init : List Key} {token : Key} {P : List Sel} {ms : List (Key × Any)}
    (hparent : (find d (pointer (init ++ [token]))).parent = some P)
    (hms : getAt P d = some (.object ms))
    (hreach : ((find d (pointer (init ++ [token]))).valid
      || (find d (pointer (init ++ [token]))).distance == 1) = true) :
    (find d (pointer (init ++ [token]))).valid = (ms.lookup token).isSome ∧
      ((find d (pointer (init ++ [token]))).valid = true →
        (find d (pointer (init ++ [token]))).child = some (.member token)) := by
  have hfind : ∃ tokens : List Key, find d (pointer (init ++ [token]))
      = seek (tokens ++ [escape token]) (tokens ++ [escape token]) 0 d [] := by
    rw [find_pointer_concat, squeeze_concat, List.map_append, List.map_singleton]
    exact ⟨_, rfl⟩
  obtain ⟨tokens, hfind⟩ := hfind
  have hne : tokens ++ [escape token] ≠ [] := by simp
  obtain ⟨k, u, Q, x, hu, hx, hseek, hlast⟩ := seek_stops (tokens ++ [escape token]) hne 0 d []
  rw [hfind, hseek] at hparent hreach ⊢
  rw [seek_last_parent] at hparent
  rw [List.nil_append, Nat.zero_add] at *
  obtain rfl := Option.some.inj hparent
  obtain rfl := Option.some.inj (hx.symm.trans hms)
  have hend : k + 1 = (tokens ++ [escape token]).length → unescape u = token := by
    intro hk
    rw [List.length_append, List.length_singleton] at hk
    obtain rfl : k = tokens.length := by omega
    rw [List.getElem?_concat_length] at hu
    rw [← Option.some.inj hu, unescape_escape]
  simp only [seek] at hreach hseek ⊢
  cases hv : ms.lookup (unescape u) with
  | none =>
    simp only [hv, Bool.false_or, Found.distance, beq_iff_eq] at hreach ⊢
    have hk := hend (by omega)
    rw [← hk, hv]
    exact ⟨rfl, by intro h; contradiction⟩
  | some v =>
    rw [hseek, hv] at hlast
    rcases hlast with h | hk
    · contradiction
    · rw [hend hk] at hv ⊢
      rw [hv]
      exact ⟨rfl, fun _ => rfl⟩

/-! ## Putting a value somewhere -/

theorem escape_eq_dash (token : Key) : escape token = dash ↔ token = dash := by
  constructor
  · intro h
    rw [← unescape_escape token, h]
    decide
  · rintro rfl
    decide

theorem escape_decimal (n : Nat) : escape (decimal n) = decimal n := by
  have hplain : ∀ k : Key, (∀ c ∈ k, isDigit c = true) → escape k = k := by
    intro k hk
    induction k with
    | nil => rfl
    | cons c k ih =>
      have hc := hk c List.mem_cons_self
      have htilde : c ≠ tilde := by rintro rfl; exact absurd hc (by decide)
      have hslash : c ≠ slash := by rintro rfl; exact absurd hc (by decide)
      have ih' := ih fun c' hc' => hk c' (List.mem_cons_of_mem c hc')
      rw [escape] at ih' ⊢
      rw [List.flatMap_cons, if_neg htilde, if_neg hslash, ih']
      rfl
  exact hplain _ fun c hc => isDigit_of_mem_decimal hc

theorem changeAt_eq {place : List Sel} {d x : Any} (hx : getAt place d = some x) (f : Any → Option Any) :
    changeAt place f d = (f x).map fun y => modifyAt place (fun _ => y) d := by
  rw [changeAt, hx, Option.bind_some]

theorem modifyAt_const {place : List Sel} {d x : Any} (hx : getAt place d = some x) (f : Any → Any) :
    modifyAt place f d = modifyAt place (fun _ => f x) d := modifyAt_congr hx rfl

/-- Different values at a place make different documents. -/
theorem modifyAt_const_inj {place : List Sel} {d x y z : Any} (hx : getAt place d = some x)
    (h : modifyAt place (fun _ => y) d = modifyAt place (fun _ => z) d) : y = z := by
  have hy := getAt_modifyAt hx fun _ => y
  rw [h, getAt_modifyAt hx] at hy
  exact (Option.some.inj hy).symm

section Insert

variable {d v : Any} {f : Found} {place : List Sel} {token : Key}

theorem insertAt_array {xs : List Any} (hx : getAt place d = some (.array xs)) :
    insertAt d f place v =
      if f.tokens.getLast? = some dash then .ok (modifyAt place (fun _ => .array (xs ++ [v])) d)
      else match stoi (f.tokens.getLast?.getD []) with
        | none => .error .outOfRange
        | some i =>
          if 0 ≤ i ∧ i ≤ xs.length then
            .ok (modifyAt place (fun _ => .array (xs.insertIdx i.toNat v)) d)
          else .error .undefined := by
  rw [insertAt, hx]
  rfl

theorem insertAt_object {ms : List (Key × Any)} (hx : getAt place d = some (.object ms)) :
    insertAt d f place v =
      if f.valid then
        (deref f.child).map fun sel => modifyAt place (fun _ => setChild (.object ms) sel v) d
      else .ok (modifyAt place (fun _ => if (ms.lookup (f.tokens.head?.getD [])).isSome then .object ms
        else .object (ms ++ [(f.tokens.head?.getD [], v)])) d) := by
  rw [insertAt, hx]
  change (if f.valid then _ else _) = _
  cases f.valid with
  | true =>
    cases f.child with
    | none => rfl
    | some sel => exact congrArg Except.ok (modifyAt_const hx fun p => setChild p sel v)
  | false => exact congrArg Except.ok (modifyAt_const hx _)

/-- `apply` puts a value where the operation puts it just when the container takes it. -/
theorem insert_right {x : Any} (hx : getAt place d = some x)
    (hlast : f.tokens.getLast? = some (escape token))
    (hobject : ∀ ms, x = .object ms → f.valid = (ms.lookup token).isSome ∧
      (f.valid = true → f.child = some (.member token))) :
    (∃ d', insertAt d f place v = .ok d' ∧ changeAt place (addTo token v) d = some d') ↔
      TakesToken f token x := by
  rw [changeAt_eq hx]
  cases x with
  | array xs =>
    have hends : f.tokens.getLast? = some dash ↔ token = dash := by
      rw [hlast, Option.some.injEq, escape_eq_dash]
    rw [insertAt_array hx, addTo, TakesToken]
    by_cases hdash : token = dash
    · rw [if_pos (hends.mpr hdash), if_pos hdash]
      exact ⟨fun _ => .inl hdash, fun _ => ⟨_, rfl, rfl⟩⟩
    rw [if_neg (mt hends.mp hdash), if_neg hdash, hlast, Option.getD_some]
    constructor
    · rintro ⟨d', hinsert, hadd⟩
      obtain ⟨y, hy, -⟩ := Option.map_eq_some_iff.mp hadd
      obtain ⟨n, hn, hfits⟩ := Option.bind_eq_some_iff.mp hy
      obtain rfl := decimalIndex_eq_some.mp hn
      split at hfits
      · next hle =>
        refine .inr ⟨n, rfl, hle, ?_⟩
        by_contra hbig
        rw [escape_decimal, stoi_decimal_eq, if_neg hbig] at hinsert
        contradiction
      · contradiction
    · rintro (h | ⟨n, rfl, hle, hlt⟩)
      · exact absurd h hdash
      · have hindex : decimalIndex (decimal n) = some n := decimalIndex_eq_some.mpr rfl
        rw [escape_decimal, stoi_decimal hlt, hindex]
        simp only [Option.bind_some]
        rw [if_pos (by omega), if_pos hle]
        exact ⟨_, rfl, rfl⟩
  | object ms =>
    obtain ⟨hvalid, hchild⟩ := hobject ms rfl
    rw [insertAt_object hx, addTo, TakesToken, putMember, ← hvalid]
    cases hv : f.valid with
    | true =>
      rw [hchild hv]
      exact ⟨fun _ => .inl rfl, fun _ => ⟨_, rfl, rfl⟩⟩
    | false =>
      obtain ⟨k, hk⟩ : ∃ k, f.tokens.head? = some k := by
        cases htokens : f.tokens with
        | nil =>
          rw [htokens] at hlast
          contradiction
        | cons k tokens => exact ⟨k, rfl⟩
      rw [hv] at hvalid
      rw [hk, Option.getD_some, if_neg Bool.false_ne_true, if_neg Bool.false_ne_true]
      constructor
      · rintro ⟨d', hinsert, hadd⟩
        have heq := modifyAt_const_inj hx
          ((Except.ok.inj hinsert).trans (Option.some.inj hadd).symm)
        split at heq
        · have hlength := congrArg List.length (Any.object.inj heq)
          rw [List.length_append, List.length_singleton] at hlength
          omega
        · have hpair := List.append_cancel_left (Any.object.inj heq)
          rw [List.singleton_inj, Prod.mk.injEq] at hpair
          rw [hpair.1]
          exact .inr rfl
      · rintro (h | h)
        · contradiction
        · obtain rfl := Option.some.inj h
          rw [← hvalid, if_neg Bool.false_ne_true]
          exact ⟨_, rfl, rfl⟩
  | _ =>
    refine ⟨?_, fun h => h.elim⟩
    rintro ⟨d', -, hadd⟩
    cases hadd

end Insert

/-! ## A parent behind an erased element -/

/-- A step beside the one that is erased, when that is done. -/
def shifted (t : Any) (sel s : Sel) : Option Sel :=
  match s, sel, t with
  | .elem j, .elem n, .array xs =>
    if j = n then none else if n = 0 then some (.elem (j - 1))
    else if n + 1 = xs.length then some (.elem j) else none
  | s, sel, _ => if s = sel then none else some s

theorem child?_eraseChild {t c x : Any} {sel s s' : Sel} (hsel : child? t sel = some c)
    (hs : child? t s = some x) (hmoved : shifted t sel s = some s') :
    child? (eraseChild t sel) s' = some x := by
  cases t with
  | array xs =>
    cases sel with
    | member k => contradiction
    | elem n =>
      cases s with
      | member k => contradiction
      | elem j =>
        have hj : j < xs.length := (List.getElem?_eq_some_iff.mp hs).1
        rw [shifted] at hmoved
        split at hmoved
        · contradiction
        split at hmoved
        · next hne hn =>
          obtain rfl := Option.some.inj hmoved
          subst hn
          change (xs.eraseIdx 0)[j - 1]? = some x
          have hback : j - 1 + 1 = j := by omega
          rw [List.getElem?_eraseIdx, if_neg (Nat.not_lt_zero _), hback]
          exact hs
        split at hmoved
        · next hne hn hend =>
          obtain rfl := Option.some.inj hmoved
          change (xs.eraseIdx n)[j]? = some x
          rw [List.getElem?_eraseIdx, if_pos (by omega)]
          exact hs
        · contradiction
  | object ms =>
    cases sel with
    | elem n => contradiction
    | member k =>
      cases s with
      | elem j => contradiction
      | member k' =>
        change (if Sel.member k' = .member k then none else some (Sel.member k')) = some s' at hmoved
        split at hmoved
        · contradiction
        · next hne =>
          obtain rfl := Option.some.inj hmoved
          change (eraseMember ms k).lookup k' = some x
          rw [lookup_eraseMember ms k k' fun h => hne (by rw [h])]
          exact hs
  | _ => contradiction

theorem survives_under {d t c x : Any} {place R : List Sel} {sel s : Sel} (ht : getAt place d = some t)
    (hsel : child? t sel = some c) (hs : child? t s = some x) :
    survives d place sel (place ++ s :: R) = (shifted t sel s).map fun s' => place ++ s' :: R := by
  have hprefix : place.isPrefixOf (place ++ s :: R) = true := List.isPrefixOf_iff_prefix.mpr
    (List.prefix_append _ _)
  unfold survives
  rw [if_pos hprefix, List.drop_left, ht]
  cases t with
  | array xs =>
    cases sel with
    | member k => contradiction
    | elem n =>
      cases s with
      | member k => contradiction
      | elem j =>
        simp only [shifted]
        split
        · rfl
        split
        · rfl
        split
        · rfl
        · rfl
  | object ms =>
    cases sel with
    | elem n => contradiction
    | member k =>
      cases s with
      | elem j => contradiction
      | member k' =>
        simp only [shifted]
        split
        · rfl
        · rfl
  | _ => contradiction

/-- The parent is as it was, or what was erased was in it. -/
theorem getAt_survives {d c x : Any} {place P P' : List Sel} {sel : Sel}
    (hc : getAt (place ++ [sel]) d = some c) (hx : getAt P d = some x)
    (h : survives d place sel P = some P') :
    ∃ x', getAt P' (modifyAt place (fun y => eraseChild y sel) d) = some x' ∧
      (x' = x ∨ ∃ Q, place = P ++ Q ∧ x' = modifyAt Q (fun y => eraseChild y sel) x) := by
  rw [getAt_append] at hc
  obtain ⟨t, ht, hsel⟩ := Option.bind_eq_some_iff.mp hc
  rw [getAt] at hsel
  obtain ⟨c', hsel, -⟩ := Option.bind_eq_some_iff.mp hsel
  by_cases hunder : place <+: P
  · obtain ⟨R, rfl⟩ := hunder
    cases R with
    | nil =>
      rw [List.append_nil] at hx h ⊢
      obtain rfl := Option.some.inj (ht.symm.trans hx)
      have hsame : survives d place sel place = some place := by
        unfold survives
        rw [if_pos (List.isPrefixOf_iff_prefix.mpr (List.prefix_refl _)), List.drop_length]
      obtain rfl := Option.some.inj (hsame.symm.trans h)
      exact ⟨_, getAt_modifyAt ht _, .inr ⟨[], by simp, rfl⟩⟩
    | cons s R =>
      rw [getAt_append, ht, Option.bind_some, getAt] at hx
      obtain ⟨y, hs, hx⟩ := Option.bind_eq_some_iff.mp hx
      rw [survives_under ht hsel hs] at h
      obtain ⟨s', hs', rfl⟩ := Option.map_eq_some_iff.mp h
      refine ⟨x, ?_, .inl rfl⟩
      rw [getAt_append, getAt_modifyAt ht, Option.bind_some, getAt,
        child?_eraseChild hsel hs hs', Option.bind_some, hx]
  · have hstays : survives d place sel P = some P := by
      unfold survives
      rw [if_neg (mt List.isPrefixOf_iff_prefix.mp hunder)]
    obtain rfl := Option.some.inj (hstays.symm.trans h)
    by_cases hover : P <+: place
    · obtain ⟨Q, rfl⟩ := hover
      exact ⟨_, getAt_modifyAt_under hx Q _, .inr ⟨Q, rfl, rfl⟩⟩
    · refine ⟨x, ?_, .inl rfl⟩
      rw [getAt_modifyAt_beside hover hunder, hx]

/-- The members of an object that something else was erased in. -/
theorem members_survive {x : Any} {ms' : List (Key × Any)} {Q : List Sel} {sel : Sel} {token : Key}
    (h : modifyAt Q (fun y => eraseChild y sel) x = .object ms') (hne : Q = [] → sel ≠ .member token) :
    ∃ ms, x = .object ms ∧ (ms'.lookup token).isSome = (ms.lookup token).isSome := by
  cases Q with
  | nil =>
    change eraseChild x sel = _ at h
    cases x with
    | object ms =>
      cases sel with
      | elem n =>
        obtain rfl := Any.object.inj h
        exact ⟨ms, rfl, rfl⟩
      | member k =>
        obtain rfl := Any.object.inj h
        refine ⟨ms, rfl, ?_⟩
        rw [lookup_eraseMember ms k token fun htoken => hne rfl (by rw [htoken])]
    | array xs => cases sel <;> contradiction
    | _ => cases h
  | cons s Q =>
    rw [modifyAt] at h
    cases hs : child? x s with
    | none =>
      rw [hs] at h
      subst h
      exact ⟨ms', rfl, rfl⟩
    | some c =>
      simp only [hs] at h
      cases x with
      | object ms =>
        cases s with
        | elem n => contradiction
        | member k =>
          obtain rfl := Any.object.inj h
          refine ⟨ms, rfl, ?_⟩
          by_cases hk : token = k
          · subst hk
            have hset := child?_setChild hs (modifyAt Q (fun y => eraseChild y sel) c)
            change (ms.lookup token) = some c at hs
            change (setMember ms token _).lookup token = _ at hset
            rw [hset, hs]
            rfl
          · rw [lookup_setMember ms k _ token hk]
      | array xs => cases s <;> contradiction
      | _ => contradiction

/-! ## The checks -/

theorem check_bind (b : Bool) (x : Except Failure Any) :
    (check b >>= fun _ => x) = if b then x else .error .invalidArgument := by
  cases b <;> rfl

/-- Two checks are one. -/
theorem ite_and (b c : Bool) (x : Except Failure Any) :
    (if b then if c then x else .error .invalidArgument else .error .invalidArgument)
      = if b && c then x else .error .invalidArgument := by
  cases b <;> rfl

/-- `apply` does nothing before its last check. -/
theorem apply_eq (d patch : Any) :
    apply d patch = if checked d patch then effect d patch else .error .invalidArgument := by
  unfold apply checked effect
  rw [check_bind]
  cases patch.member (text "path") with
  | string path =>
    cases decodePatchOperation (patch.member (text "op")) with
    | invalid => rfl
    | test => simp only [check_bind]; rfl
    | remove =>
      simp only [check_bind, ite_and]
      cases path.isEmpty <;> rfl
    | replace =>
      simp only [check_bind, ite_and]
      cases path.isEmpty with
      | true => rfl
      | false =>
        rw [Bool.false_or, Bool.and_assoc]
        rfl
    | add =>
      simp only [check_bind, ite_and]
      cases path.isEmpty with
      | true => rfl
      | false =>
        rw [Bool.false_or, Bool.and_assoc]
        rfl
    | copy =>
      simp only [check_bind, ite_and]
      cases path.isEmpty with
      | true => rfl
      | false =>
        cases patch.member (text "from") with
        | string source => rfl
        | _ => rfl
    | move =>
      simp only [check_bind, ite_and]
      cases path.isEmpty with
      | true => rfl
      | false =>
        cases patch.member (text "from") with
        | string source => rfl
        | _ => rfl
  | _ =>
    simp only
    cases decodePatchOperation (patch.member (text "op")) <;> rfl

theorem target_ne (f : Found) (d : Any) : f.target d ≠ .error .invalidArgument := by
  unfold Found.target
  cases f.parent with
  | none => simp [deref, bind, Except.bind]
  | some place =>
    cases f.child with
    | none => simp [deref, bind, Except.bind]
    | some sel =>
      cases hget : getAt (place ++ [sel]) d <;> simp [deref, bind, Except.bind, hget, pure, Except.pure]

theorem bind_ne {α β : Type} {e : Except Failure α} {f : α → Except Failure β}
    (he : e ≠ .error .invalidArgument) (hf : ∀ a, f a ≠ .error .invalidArgument) :
    (e >>= f) ≠ .error .invalidArgument := by
  cases e with
  | ok a => exact hf a
  | error err => exact fun h => he (congrArg Except.error (Except.error.inj h))

/-- Behind the checks nothing is refused. -/
theorem effect_ne (d patch : Any) : effect d patch ≠ .error .invalidArgument := by
  have hpure : ∀ t : Any, (pure t : Except Failure Any) ≠ .error .invalidArgument := by
    intro t h
    cases h
  unfold effect
  cases patch.member (text "path") with
  | string path =>
    cases decodePatchOperation (patch.member (text "op")) with
    | invalid => exact hpure d
    | test => exact hpure d
    | remove =>
      simp only
      split
      · exact hpure _
      · exact bind_ne (target_ne _ d) fun _ => hpure _
    | replace =>
      simp only
      split
      · exact hpure _
      · exact bind_ne (target_ne _ d) fun _ => hpure _
    | add =>
      simp only
      split
      · exact hpure _
      · exact bind_ne deref_ne fun _ => insertAt_ne _ _ _ _
    | copy =>
      simp only
      split
      · exact bind_ne (target_ne _ d) fun _ => bind_ne deref_ne fun _ => insertAt_ne _ _ _ _
      · exact hpure _
    | move =>
      simp only
      split
      · unfold moveEffect
        refine bind_ne (target_ne _ d) fun _ => bind_ne deref_ne fun _ => ?_
        split
        · intro h
          cases h
        · exact bind_ne deref_ne fun _ => insertAt_ne _ _ _ _
      · exact hpure _
  | _ => exact hpure d

/-! ## What a path leads to -/

section Leads

variable {d : Any} {path : List Key}

theorem find_parent (d : Any) (init : List Key) (token : Key) :
    ∃ P x, (find d (pointer (init ++ [token]))).parent = some P ∧ getAt P d = some x ∧
      (find d (pointer (init ++ [token]))).tokens.getLast? = some (escape token) := by
  have hne : (squeeze (init ++ [token])).map escape ≠ [] := by simp [squeeze_concat]
  obtain ⟨k, u, Q, x, -, hx, hseek, -⟩ := seek_stops ((squeeze (init ++ [token])).map escape) hne 0 d []
  rw [find_pointer_concat, hseek, seek_last_parent, seek_last_tokens, squeeze_concat, List.map_append]
  exact ⟨Q, x, rfl, hx, by simp⟩

theorem valueAt_eq_some {v : Any} :
    valueAt path d = some v ↔ ∃ place, resolve path d = some (.value place) ∧ getAt place d = some v := by
  unfold valueAt
  constructor
  · intro h
    split at h
    · next place hplace => exact ⟨place, hplace, h⟩
    · contradiction
  · rintro ⟨place, hplace, hv⟩
    rw [hplace]
    exact hv

/-- Only the whole document is as large as it. -/
theorem valueAt_self : valueAt path d = some d ↔ path = [] := by
  constructor
  · intro h
    obtain ⟨place, hplace, hv⟩ := valueAt_eq_some.mp h
    have hsize := size_eq hplace
    have hle := sizeOf_getAt hv
    simp only [Target.size, List.length_nil] at hsize
    apply List.eq_nil_of_length_eq_zero
    omega
  · rintro rfl
    rfl

theorem designated_eq_value {f : Found} {place : List Sel} (hparent : f.parent.isSome = true) :
    f.designated = some (.value place) ↔
      f.valid = true ∧ ∃ p s, f.parent = some p ∧ f.child = some s ∧ place = p ++ [s] := by
  obtain ⟨p, hp⟩ := Option.isSome_iff_exists.mp hparent
  rw [Found.designated, hp]
  cases hv : f.valid with
  | false => simp
  | true =>
    cases hs : f.child with
    | none => simp
    | some s => simp [eq_comm]

/-- A path that leads to a value and is not empty: what `find` found is there. -/
theorem target_of_leads {place : List Sel} (hne : path ≠ []) (h : Leads d path place) :
    ∃ p s w, place = p ++ [s] ∧ (find d (pointer path)).target d = .ok (p, s, w) ∧
      getAt place d = some w := by
  rcases List.eq_nil_or_concat' path with rfl | ⟨init, token, rfl⟩
  · exact absurd rfl hne
  obtain ⟨P, -, hP, -, -⟩ := find_parent d init token
  have hdesignated := (designated_iff_legible h.1).mpr h.2
  rw [designated_eq_value (by rw [hP]; rfl)] at hdesignated
  obtain ⟨-, p, s, hp, hs, rfl⟩ := hdesignated
  obtain ⟨Q, w, hQ, hw, -⟩ := seek_init (skim_of_resolve h.1 h.2.2) [] [] 0
  rw [List.nil_append] at hQ
  rw [← hQ] at hw
  exact ⟨p, s, w, rfl, target_eq hp hs hw, hw⟩

theorem leads_of_target {p : List Sel} {s : Sel} {w v : Any}
    (htarget : (find d (pointer path)).target d = .ok (p, s, w)) (hpointed : Pointed d path)
    (hv : valueAt path d = some v) : path ≠ [] ∧ Leads d path (p ++ [s]) ∧ getAt (p ++ [s]) d = some w ∧
      v = w := by
  obtain ⟨place, hplace, hget⟩ := valueAt_eq_some.mp hv
  have hne : path ≠ [] := by
    rintro rfl
    contradiction
  have hdesignated := hpointed.trans hplace
  have hlegible := (designated_iff_legible hplace).mp hdesignated
  obtain ⟨p', s', w', rfl, htarget', hget'⟩ := target_of_leads hne ⟨hplace, hlegible⟩
  obtain ⟨rfl, hpair⟩ := Prod.mk.inj (Except.ok.inj (htarget'.symm.trans htarget))
  obtain ⟨rfl, rfl⟩ := Prod.mk.inj hpair
  exact ⟨hne, ⟨hplace, hlegible⟩, hget', Option.some.inj (hget.symm.trans hget')⟩

theorem pointed_of_leads {place : List Sel} (h : Leads d path place) : Pointed d path := by
  rw [Pointed, h.1]
  exact (designated_iff_legible h.1).mpr h.2

theorem leads_of_pointed {place : List Sel} (hplace : resolve path d = some (.value place))
    (h : Pointed d path) : Leads d path place := by
  refine ⟨hplace, (designated_iff_legible hplace).mp ?_⟩
  rw [h, hplace]

end Leads

/-! ## The operations one by one -/

/-- What `apply` does is what the operation means, and is done in the right place. -/
def Agrees (d : Any) (result : Except Failure Any) (o : Operation) : Prop :=
  ∃ d', result = .ok d' ∧ o.perform d = some d' ∧ o.Placed d

section Ops

variable {d v : Any} {path source : List Key}

theorem getLast?_concat_eq (init : List Key) (token : Key) :
    (init ++ [token]).getLast? = some token ∧ (init ++ [token]).dropLast = init := by simp

/-- To put a value under the last token of a path. -/
theorem fits_iff (hne : path ≠ [])
    (hreach : ((find d (pointer path)).valid || (find d (pointer path)).distance == 1) = true) :
    (∃ d', (do insertAt d (find d (pointer path)) (← deref (find d (pointer path)).parent) v) = .ok d' ∧
        added path v d = some d' ∧ Parented d path) ↔ Fits d path := by
  rcases List.eq_nil_or_concat' path with rfl | ⟨init, token, rfl⟩
  · exact absurd rfl hne
  obtain ⟨hlast, hdrop⟩ := getLast?_concat_eq init token
  obtain ⟨P, -, hP, -, htokens⟩ := find_parent d init token
  have hinsert : ∀ {x : Any}, getAt P d = some x →
      ((∃ d', insertAt d (find d (pointer (init ++ [token]))) P v = .ok d' ∧
          changeAt P (addTo token v) d = some d') ↔ TakesToken (find d (pointer (init ++ [token]))) token x) := by
    intro x hx
    apply insert_right hx htokens
    rintro ms rfl
    exact find_in_object hP hx hreach
  rw [hP]
  unfold added
  rw [hlast, hdrop]
  constructor
  · rintro ⟨d', heffect, hadded, hparented⟩
    rcases hparented with hnil | ⟨init', token', place, heq, hplace, hparent⟩
    · exact absurd hnil hne
    obtain ⟨rfl, htoken⟩ := List.append_inj' heq rfl
    rw [hP] at hparent
    obtain rfl := Option.some.inj hparent
    simp only [hplace] at hadded
    obtain ⟨x, hx, -⟩ := Option.bind_eq_some_iff.mp hadded
    refine ⟨init, token, P, x, rfl, hplace, (parent_iff_legible hplace).mp hP, hx, ?_⟩
    exact (hinsert hx).mp ⟨d', heffect, hadded⟩
  · rintro ⟨init', token', place, x, heq, hplace, hlegible, hx, htakes⟩
    obtain ⟨rfl, htoken⟩ := List.append_inj' heq rfl
    obtain rfl := List.singleton_inj.mp htoken
    have hparent := (parent_iff_legible hplace).mpr hlegible
    obtain rfl := Option.some.inj (hP.symm.trans hparent)
    obtain ⟨d', hok, hchange⟩ := (hinsert hx).mpr htakes
    simp only [hplace]
    exact ⟨d', hok, hchange, .inr ⟨init, token, P, rfl, hplace, hP⟩⟩

theorem pointer_isEmpty (path : List Key) : (pointer path).isEmpty = path.isEmpty := by
  cases path <;> rfl

theorem agrees_add (hreach : path ≠ [] →
      ((find d (pointer path)).valid || (find d (pointer path)).distance == 1) = true) :
    Agrees d (if (pointer path).isEmpty then pure v
        else do insertAt d (find d (pointer path)) (← deref (find d (pointer path)).parent) v)
      (.add path v) ↔ (Operation.add path v).Sound d := by
  rw [pointer_isEmpty]
  by_cases hne : path = []
  · subst hne
    exact ⟨fun _ => .inl rfl, fun _ => ⟨v, rfl, rfl, .inl rfl⟩⟩
  · rw [if_neg (by simpa using hne)]
    refine (fits_iff hne (hreach hne)).trans ⟨.inr, fun h => ?_⟩
    exact h.resolve_left hne

theorem agrees_remove :
    Agrees d (if (pointer path).isEmpty then pure .null
        else do
          let (place, sel, _) ← (find d (pointer path)).target d
          pure (modifyAt place (fun p => eraseChild p sel) d))
      (.remove path) ↔ (Operation.remove path).Sound d := by
  rw [pointer_isEmpty]
  constructor
  · rintro ⟨d', -, hremoved, hpointed⟩
    change removed path d = some d' at hremoved
    unfold removed at hremoved
    split at hremoved
    · next place hplace => exact ⟨place, leads_of_pointed hplace hpointed⟩
    · contradiction
  · rintro ⟨place, hleads⟩
    by_cases hne : path = []
    · subst hne
      exact ⟨.null, rfl, rfl, pointed_of_leads hleads⟩
    obtain ⟨p, s, w, rfl, htarget, -⟩ := target_of_leads hne hleads
    rw [if_neg (by simpa using hne), htarget]
    refine ⟨_, rfl, ?_, pointed_of_leads hleads⟩
    change removed path d = _
    rw [removed, hleads.1]
    simp

theorem agrees_replace :
    Agrees d (if (pointer path).isEmpty then pure v
        else do
          let (place, sel, _) ← (find d (pointer path)).target d
          pure (modifyAt place (fun p => setChild p sel v) d))
      (.replace path v) ↔ (Operation.replace path v).Sound d := by
  rw [pointer_isEmpty]
  constructor
  · rintro ⟨d', -, hreplaced, hpointed⟩
    change replaced path v d = some d' at hreplaced
    unfold replaced at hreplaced
    split at hreplaced
    · next place hplace => exact ⟨place, leads_of_pointed hplace hpointed⟩
    · contradiction
  · rintro ⟨place, hleads⟩
    by_cases hne : path = []
    · subst hne
      exact ⟨v, rfl, rfl, pointed_of_leads hleads⟩
    obtain ⟨p, s, w, rfl, htarget, hget⟩ := target_of_leads hne hleads
    rw [if_neg (by simpa using hne), htarget]
    refine ⟨_, rfl, ?_, pointed_of_leads hleads⟩
    change replaced path v d = _
    rw [replaced, hleads.1]
    rw [getAt_append] at hget
    obtain ⟨x, hx, hchild⟩ := Option.bind_eq_some_iff.mp hget
    obtain ⟨c, hc, -⟩ := Option.bind_eq_some_iff.mp hchild
    change some (modifyAt (p ++ [s]) (fun _ => v) d) = _
    rw [modifyAt_append]
    refine congrArg some (modifyAt_congr hx ?_)
    simp only [modifyAt, hc]

theorem agrees_test : Agrees d (pure d) (.test path v) ↔ (Operation.test path v).Sound d := by
  constructor
  · rintro ⟨d', -, hperform, -⟩
    obtain ⟨w, hw, heq⟩ := Option.bind_eq_some_iff.mp hperform
    split at heq
    · next h => exact ⟨w, hw, h⟩
    · contradiction
  · rintro ⟨w, hw, heq⟩
    refine ⟨d, rfl, ?_, trivial⟩
    simp only [Operation.perform, hw, Option.bind_some]
    rw [if_pos heq]

theorem agrees_copy (hreach : path ≠ [] →
      ((find d (pointer path)).valid || (find d (pointer path)).distance == 1) = true) :
    Agrees d (if (pointer path).isEmpty then pure d
        else do
          let (_, _, copied) ← (find d (pointer source)).target d
          insertAt d (find d (pointer path)) (← deref (find d (pointer path)).parent) copied)
      (.copy source path) ↔ (Operation.copy source path).Sound d := by
  rw [pointer_isEmpty]
  by_cases hne : path = []
  · subst hne
    constructor
    · rintro ⟨d', hok, hperform, -⟩
      obtain rfl := Except.ok.inj hok
      obtain ⟨w, hw, hadded⟩ := Option.bind_eq_some_iff.mp hperform
      obtain rfl := Option.some.inj hadded
      exact .inl ⟨valueAt_self.mp hw, rfl⟩
    · rintro (⟨rfl, -⟩ | ⟨-, -, init, token, place, x, heq, -⟩)
      · exact ⟨d, rfl, rfl, rfl, .inl rfl⟩
      · simp at heq
  rw [if_neg (by simpa using hne)]
  constructor
  · rintro ⟨d', hok, hperform, hpointed, hparented⟩
    obtain ⟨w, hw, hadded⟩ := Option.bind_eq_some_iff.mp hperform
    cases htarget : (find d (pointer source)).target d with
    | error e =>
      rw [htarget] at hok
      contradiction
    | ok target =>
      obtain ⟨p, s, copied⟩ := target
      rw [htarget] at hok
      obtain ⟨hsource, hleads, -, rfl⟩ := leads_of_target htarget hpointed hw
      exact .inr ⟨hsource, ⟨_, hleads⟩, (fits_iff hne (hreach hne)).mp ⟨d', hok, hadded, hparented⟩⟩
  · rintro (⟨-, rfl⟩ | ⟨hsource, ⟨place, hleads⟩, hfits⟩)
    · exact absurd rfl hne
    obtain ⟨p, s, w, rfl, htarget, hget⟩ := target_of_leads hsource hleads
    obtain ⟨d', hok, hadded, hparented⟩ := (@fits_iff d w path hne (hreach hne)).mpr hfits
    rw [htarget]
    refine ⟨d', hok, ?_, pointed_of_leads hleads, hparented⟩
    change (valueAt source d).bind _ = _
    rw [valueAt_eq_some.mpr ⟨_, hleads.1, hget⟩, Option.bind_some, hadded]

section Move

variable {init : List Key} {token : Key} {P p : List Sel} {s : Sel} {w : Any}

theorem moveEffect_guard (htarget : (find d (pointer source)).target d = .ok (p, s, w))
    (hP : (find d (pointer (init ++ [token]))).parent = some P) :
    moveEffect d (pointer source) (pointer (init ++ [token])) =
      if (find d (pointer (init ++ [token]))).valid && P == p
          && (find d (pointer (init ++ [token]))).child == some s
          && !((getAt p d).map isArray == some true) then .error .undefined
      else deref (survives d p s P) >>= fun P' =>
        insertAt (modifyAt p (fun x => eraseChild x s) d) (find d (pointer (init ++ [token]))) P' w := by
  unfold moveEffect
  rw [htarget, hP]
  have hsome : (some P == some p) = (P == p) := by
    rw [Bool.eq_iff_iff]
    simp
  simp only [bind, Except.bind, deref, hsome]
  split
  · rfl
  · rfl

/-- The move goes on behind the erased source unless it is to assign to the member that was erased. -/
theorem moveEffect_eq (htarget : (find d (pointer source)).target d = .ok (p, s, w))
    (hP : (find d (pointer (init ++ [token]))).parent = some P)
    (hget : getAt (p ++ [s]) d = some w)
    (hreach : ((find d (pointer (init ++ [token]))).valid
      || (find d (pointer (init ++ [token]))).distance == 1) = true) :
    moveEffect d (pointer source) (pointer (init ++ [token])) =
      if P = p ∧ s = .member token then .error .undefined
      else deref (survives d p s P) >>= fun P' =>
        insertAt (modifyAt p (fun x => eraseChild x s) d) (find d (pointer (init ++ [token]))) P' w := by
  rw [moveEffect_guard htarget hP]
  have hguard : ((find d (pointer (init ++ [token]))).valid && P == p
      && (find d (pointer (init ++ [token]))).child == some s
      && !((getAt p d).map isArray == some true)) = decide (P = p ∧ s = .member token) := by
    by_cases hPp : P = p
    · subst hPp
      rw [getAt_append] at hget
      obtain ⟨x, hx, hchild⟩ := Option.bind_eq_some_iff.mp hget
      obtain ⟨c, hc, -⟩ := Option.bind_eq_some_iff.mp hchild
      rw [hx]
      cases x with
      | array xs =>
        cases s with
        | elem n => simp [isArray]
        | member k => contradiction
      | object ms =>
        obtain ⟨hvalid, hmember⟩ := find_in_object hP hx hreach
        cases s with
        | elem n => contradiction
        | member k =>
          cases hv : (find d (pointer (init ++ [token]))).valid with
          | true =>
            have hsame : (some (Sel.member token) == some (Sel.member k))
                = decide (Sel.member k = Sel.member token) := by
              rw [Bool.eq_iff_iff, beq_iff_eq, Option.some.injEq, decide_eq_true_eq]
              exact eq_comm
            rw [hmember hv, hsame]
            simp [isArray]
          | false =>
            have hk : k ≠ token := by
              rintro rfl
              rw [hv] at hvalid
              change ms.lookup k = some c at hc
              rw [hc] at hvalid
              contradiction
            simp [hk]
      | _ => contradiction
    · simp [hPp]
  rw [hguard]
  by_cases h : P = p ∧ s = .member token
  · rw [if_pos h, if_pos (decide_eq_true h)]
  · rw [if_neg h, if_neg (by simpa using h)]

theorem agrees_move (hreach : path ≠ [] →
      ((find d (pointer path)).valid || (find d (pointer path)).distance == 1) = true) :
    Agrees d (if (pointer path).isEmpty then pure d else moveEffect d (pointer source) (pointer path))
      (.move source path) ↔ (Operation.move source path).Sound d := by
  rw [pointer_isEmpty]
  rcases List.eq_nil_or_concat' path with rfl | ⟨init, token, rfl⟩
  · constructor
    · rintro ⟨d', hok, hperform, -⟩
      obtain rfl := Except.ok.inj hok
      change (if _ then none else _) = _ at hperform
      split at hperform
      · contradiction
      obtain ⟨w, hw, hrest⟩ := Option.bind_eq_some_iff.mp hperform
      obtain ⟨d₁, -, hadded⟩ := Option.bind_eq_some_iff.mp hrest
      obtain rfl := Option.some.inj hadded
      exact .inl ⟨valueAt_self.mp hw, rfl⟩
    · rintro (⟨rfl, -⟩ | ⟨place, sel, init, token, P, P', x, -, heq, -⟩)
      · exact ⟨d, rfl, by simp [Operation.perform, valueAt, removed, resolve, follow, getAt, added], rfl, .inl rfl⟩
      · simp at heq
  have hne : init ++ [token] ≠ [] := by simp
  have hreach := hreach hne
  rw [if_neg (by simp)]
  obtain ⟨hlast, hdrop⟩ := getLast?_concat_eq init token
  obtain ⟨P, x₀, hP, hx₀, htokens⟩ := find_parent d init token
  -- what the target takes, when the source has been erased
  have hinsert : ∀ {p : List Sel} {s : Sel} {w : Any} {P' : List Sel} {x : Any},
      getAt (p ++ [s]) d = some w → (P = p → s ≠ .member token) → survives d p s P = some P' →
      getAt P' (modifyAt p (fun y => eraseChild y s) d) = some x →
      ((∃ d', insertAt (modifyAt p (fun y => eraseChild y s) d)
            (find d (pointer (init ++ [token]))) P' w = .ok d' ∧
          changeAt P' (addTo token w) (modifyAt p (fun y => eraseChild y s) d) = some d') ↔
        TakesToken (find d (pointer (init ++ [token]))) token x) := by
    intro p s w P' x hget hother hsurvives hx
    apply insert_right hx htokens
    rintro ms rfl
    obtain ⟨x', hx', hfrom⟩ := getAt_survives hget hx₀ hsurvives
    obtain rfl := Option.some.inj (hx'.symm.trans hx)
    have hms : ∃ ms₀, x₀ = .object ms₀ ∧ (ms.lookup token).isSome = (ms₀.lookup token).isSome := by
      rcases hfrom with rfl | ⟨Q, rfl, hQ⟩
      · exact ⟨ms, rfl, rfl⟩
      · apply members_survive hQ.symm
        rintro rfl
        exact hother (by simp)
    obtain ⟨ms₀, rfl, hsome⟩ := hms
    rw [hsome]
    exact find_in_object hP hx₀ hreach
  constructor
  · rintro ⟨d', hok, hperform, hpointed, hparented⟩
    change (if _ then none else _) = _ at hperform
    split at hperform
    · contradiction
    next hnot =>
    obtain ⟨w, hw, hrest⟩ := Option.bind_eq_some_iff.mp hperform
    obtain ⟨d₁, hremoved, hadded⟩ := Option.bind_eq_some_iff.mp hrest
    cases htarget : (find d (pointer source)).target d with
    | error e =>
      unfold moveEffect at hok
      rw [htarget] at hok
      contradiction
    | ok target =>
      obtain ⟨p, s, moved⟩ := target
      obtain ⟨-, hleads, hget, rfl⟩ := leads_of_target htarget hpointed hw
      rw [moveEffect_eq htarget hP hget hreach] at hok
      split at hok
      · contradiction
      next hother =>
      rcases hparented with hnil | ⟨p', s', init', token', P₁, P', hplace, heq, hP₁, hsurvives, hinit⟩
      · exact absurd hnil hne
      obtain ⟨rfl, htoken⟩ := List.append_inj' heq rfl
      obtain rfl := Option.some.inj (hP.symm.trans hP₁)
      have hsame := Target.value.inj (Option.some.inj (hleads.1.symm.trans hplace))
      obtain ⟨rfl, hs⟩ := List.append_inj' hsame rfl
      obtain rfl := List.singleton_inj.mp hs
      have hd₁ : d₁ = modifyAt p (fun y => eraseChild y s) d := by
        unfold removed at hremoved
        rw [hleads.1] at hremoved
        simpa using hremoved.symm
      subst hd₁
      unfold added at hadded
      rw [hlast, hdrop] at hadded
      simp only [hinit] at hadded
      obtain ⟨x, hx, -⟩ := Option.bind_eq_some_iff.mp hadded
      rw [hsurvives] at hok
      have hother' : P = p → s ≠ .member token := fun hPp hs => hother ⟨hPp, hs⟩
      refine .inr ⟨p, s, init, token, P, P', x, hleads, rfl, hnot, hP, hsurvives, hinit, hx, hother', ?_⟩
      exact (hinsert hget hother' hsurvives hx).mp ⟨d', hok, hadded⟩
  · rintro (⟨-, hnil⟩ | ⟨p, s, init', token', P₁, P', x, hleads, heq, hnot, hP₁, hsurvives, hplace, hx, hother,
      htakes⟩)
    · exact absurd hnil hne
    obtain ⟨rfl, htoken⟩ := List.append_inj' heq rfl
    obtain rfl := List.singleton_inj.mp htoken
    obtain rfl := Option.some.inj (hP.symm.trans hP₁)
    have hsource : source ≠ [] := by
      rintro rfl
      have hnil := hleads.1
      simp [resolve, follow] at hnil
    obtain ⟨p', s', w, hpair, htarget, hget⟩ := target_of_leads hsource hleads
    obtain ⟨rfl, hs⟩ := List.append_inj' hpair rfl
    obtain rfl := List.singleton_inj.mp hs
    obtain ⟨d', hok, hchange⟩ := (hinsert hget hother hsurvives hx).mpr htakes
    have hremoved : removed source d = some (modifyAt p (fun y => eraseChild y s) d) := by
      unfold removed
      rw [hleads.1]
      simp
    refine ⟨d', ?_, ?_, pointed_of_leads hleads,
      .inr ⟨p, s, init, token, P, P', hleads.1, rfl, hP, hsurvives, hplace⟩⟩
    · rw [moveEffect_eq htarget hP hget hreach, if_neg fun h => hother h.1 h.2, hsurvives]
      exact hok
    · change (if _ then none else _) = _
      rw [if_neg hnot, valueAt_eq_some.mpr ⟨_, hleads.1, hget⟩, Option.bind_some, hremoved,
        Option.bind_some]
      unfold added
      rw [hlast, hdrop]
      simp only [hplace]
      exact hchange

end Move

end Ops

/-! ## Every patch -/

theorem member_of_member? {patch x : Any} {k : Key} (h : member? patch k = some x) :
    patch.member k = x := by
  cases patch with
  | object ms =>
    change ms.lookup k = some x at h
    rw [member, h]
    rfl
  | _ => contradiction

theorem decode_copy : decodePatchOperation (.string (text "copy")) = .copy := by decide

theorem decode_move : decodePatchOperation (.string (text "move")) = .move := by decide

theorem decode_test : decodePatchOperation (.string (text "test")) = .test := by decide

/-- Behind its checks `apply` does what a patch says just when the operation is sound. -/
theorem agrees_of_names {d patch : Any} {o : Operation} (hnames : Names patch o)
    (hchecked : checked d patch = true) : Agrees d (effect d patch) o ↔ o.Sound d := by
  have hpointer : ∀ {path : List Key}, path ≠ [] → (pointer path).isEmpty = false := by
    intro path hne
    rw [pointer_isEmpty]
    simpa using hne
  unfold checked at hchecked
  unfold effect
  cases hnames with
  | @add path v hop hpath hv =>
    rw [member_of_member? hop, member_of_member? hpath, decode_add] at hchecked
    rw [member_of_member? hop, member_of_member? hpath, member_of_member? hv, decode_add]
    apply agrees_add
    intro hne
    simp only [hpointer hne, Bool.false_or, Bool.and_eq_true] at hchecked
    exact hchecked.1.1
  | @remove path hop hpath =>
    rw [member_of_member? hop, member_of_member? hpath, decode_remove]
    exact agrees_remove
  | @replace path v hop hpath hv =>
    rw [member_of_member? hop, member_of_member? hpath, member_of_member? hv, decode_replace]
    exact agrees_replace
  | @copy source path hop hpath hsource =>
    rw [member_of_member? hop, member_of_member? hpath, member_of_member? hsource, decode_copy] at hchecked
    rw [member_of_member? hop, member_of_member? hpath, member_of_member? hsource, decode_copy]
    have hagrees := @agrees_copy d path source fun hne => by
      simp only [hpointer hne, Bool.false_or, Bool.and_eq_true] at hchecked
      exact hchecked.1
    simp only
    cases hempty : (pointer path).isEmpty with
    | true =>
      rw [hempty] at hagrees
      exact hagrees
    | false =>
      rw [hempty] at hagrees
      exact hagrees
  | @move source path hop hpath hsource =>
    rw [member_of_member? hop, member_of_member? hpath, member_of_member? hsource, decode_move] at hchecked
    rw [member_of_member? hop, member_of_member? hpath, member_of_member? hsource, decode_move]
    have hagrees := @agrees_move d path source fun hne => by
      simp only [hpointer hne, Bool.false_or, Bool.and_eq_true] at hchecked
      exact hchecked.1
    simp only
    cases hempty : (pointer path).isEmpty with
    | true =>
      rw [hempty] at hagrees
      exact hagrees
    | false =>
      rw [hempty] at hagrees
      exact hagrees
  | @test path v hop hpath hv =>
    rw [member_of_member? hop, member_of_member? hpath, decode_test]
    exact agrees_test

/-- `apply` returns an error, or does what the patch says and where it says, if and only if its checks refuse
the patch, or the patch is the text of an operation that is sound. -/
theorem apply_right_iff (d patch : Any) :
    AppliesRight d patch ↔
      checked d patch = false ∨ ∃ o, Names patch o ∧ o.Sound d := by
  unfold AppliesRight
  rw [apply_eq]
  cases hchecked : checked d patch with
  | false => exact ⟨fun _ => .inl rfl, fun _ => trivial⟩
  | true =>
    rw [if_pos rfl]
    have hright : (∃ o, Names patch o ∧ Agrees d (effect d patch) o) ↔ ∃ o, Names patch o ∧ o.Sound d := by
      constructor
      · rintro ⟨o, hnames, hagrees⟩
        exact ⟨o, hnames, (agrees_of_names hnames hchecked).mp hagrees⟩
      · rintro ⟨o, hnames, hsound⟩
        exact ⟨o, hnames, (agrees_of_names hnames hchecked).mpr hsound⟩
    have hne := effect_ne d patch
    cases heffect : effect d patch with
    | ok d' =>
      rw [heffect] at hright
      constructor
      · rintro ⟨o, hnames, hperform, hplaced⟩
        exact .inr (hright.mp ⟨o, hnames, d', rfl, hperform, hplaced⟩)
      · rintro (h | hsound)
        · contradiction
        · obtain ⟨o, hnames, d'', hok, hperform, hplaced⟩ := hright.mpr hsound
          obtain rfl := Except.ok.inj hok
          exact ⟨o, hnames, hperform, hplaced⟩
    | error e =>
      rw [heffect] at hright hne
      have hnot : ¬∃ o, Names patch o ∧ o.Sound d := by
        intro hsound
        obtain ⟨o, -, d', hok, -⟩ := hright.mpr hsound
        contradiction
      cases e with
      | invalidArgument => exact absurd rfl hne
      | outOfRange => simp [hnot]
      | undefined => simp [hnot]

/-- The end of an array is erased, a token that is no number is an exception, and a test that differs is
passed. -/
theorem apply_goes_wrong :
    (apply (.array [.null]) (.object [(text "op", .string (text "remove")), (text "path", .string (text "/-"))])
        = .error .undefined ∧
      apply (.array []) (.object [(text "op", .string (text "add")), (text "path", .string (text "/x")),
        (text "value", .boolean true)]) = .error .outOfRange ∧
      apply (.array [.null]) (.object [(text "op", .string (text "test")),
        (text "path", .string (text "/0")), (text "value", .boolean true)]) = .ok (.array [.null])) ∧
      ¬∀ d patch : Any, AppliesRight d patch := by
  have hend : apply (.array [.null])
      (.object [(text "op", .string (text "remove")), (text "path", .string (text "/-"))])
        = .error .undefined := rfl
  refine ⟨⟨hend, rfl, rfl⟩, fun hall => ?_⟩
  have hright := hall (.array [.null])
    (.object [(text "op", .string (text "remove")), (text "path", .string (text "/-"))])
  rw [AppliesRight, hend] at hright
  exact hright

end Nodeoze.Any
