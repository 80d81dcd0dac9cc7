import Nodeoze.Any.Pointer

/-!
# Differences and patches

`any::diff` compares two values and lists, as an array of objects with an `op`, a `path` and a
`value`, how the second is made from the first.  `any::patch` takes such an array and carries its
operations out one after the other, each of them through `find`.
-/

namespace Nodeoze.Any

/-! ## What is read of a value -/

def isNull : Any → Bool
  | .null => true
  | _ => false

def isArray : Any → Bool
  | .array _ => true
  | _ => false

/-- `any::operator[]( const std::string & ) const` -/
def member : Any → Key → Any
  | .object ms, k => (ms.lookup k).getD .null
  | _, _ => .null

/-- `any::to_uint64` of an integer -/
def toUint64 (i : Int64) : UInt64 := if 0 ≤ i then i.toUInt64 else 0

def isNaN (w : UInt64) : Bool := decide (0x7FF0000000000000 < w &&& 0x7FFFFFFFFFFFFFFF)

/-- The comparison of two doubles: the zeros of both signs are equal. -/
def floatEq (w w' : UInt64) : Bool :=
  !isNaN w && !isNaN w' && (w == w' || (w ||| w') &&& 0x7FFFFFFFFFFFFFFF == 0)

/-! ## `any::diff` -/

/-- `actual_path` -/
def actualPath (path suffix : Key) : Key :=
  if suffix.isEmpty then path else path ++ slash :: suffix

def patchObject (op path : Key) (obj : Any) : Any :=
  .object ([(text "op", .string op), (text "path", .string path)]
    ++ if obj.isNull then [] else [(text "value", obj)])

/-- `any::add_patch`, with the patches that it adds. -/
def addPatch (exclusions : List Key) (op path suffix : Key) (obj : Any) : List Any :=
  if actualPath path suffix ∈ exclusions then [] else [patchObject op (actualPath path suffix) obj]

mutual

/-- `any::create_patches`, with the patches that it adds.  The flag for the case of letters is handed
on and never read. -/
def createPatches (exclusions : List Key) (path : Key) : Any → Any → List Any
  | .null, .null => []
  | .boolean b, .boolean b' =>
    if b != b' then addPatch exclusions (text "replace") path [] (.boolean b') else []
  | .integer i, .integer i' =>
    if toUint64 i != toUint64 i' then addPatch exclusions (text "replace") path [] (.integer i')
    else []
  | .floating w, .floating w' =>
    if !floatEq w w' then addPatch exclusions (text "replace") path [] (.floating w') else []
  | .string bs, .string bs' =>
    if bs != bs' then addPatch exclusions (text "replace") path [] (.string bs') else []
  | .blob bs, .blob bs' =>
    if bs != bs' then addPatch exclusions (text "replace") path [] (.blob bs') else []
  | .array xs, .array ys =>
    createElems exclusions path 0 xs ys
      ++ (List.replicate (xs.length - min xs.length ys.length)
          (addPatch exclusions (text "remove") path (decimal (min xs.length ys.length)) .null)).flatten
      ++ (ys.drop (min xs.length ys.length)).flatMap (addPatch exclusions (text "add") path dash)
  | .object ms, .object ns =>
    createMembers exclusions path ms ns
      ++ (ns.filter fun m => (ms.lookup m.1).isNone).flatMap fun m =>
          addPatch exclusions (text "add") path m.1 m.2
  | _, rhs => addPatch exclusions (text "replace") path [] rhs

/-- The elements that both arrays have, from `index` on. -/
def createElems (exclusions : List Key) (path : Key) : Nat → List Any → List Any → List Any
  | index, x :: xs, y :: ys =>
    createPatches exclusions (path ++ slash :: decimal index) x y
      ++ createElems exclusions path (index + 1) xs ys
  | _, _, _ => []

/-- The members of the first object. -/
def createMembers (exclusions : List Key) (path : Key) :
    List (Key × Any) → List (Key × Any) → List Any
  | [], _ => []
  | (k, v) :: ms, ns =>
    (match ns.lookup k with
      | some v' => createPatches exclusions (path ++ slash :: k) v v'
      | none => addPatch exclusions (text "remove") path k .null)
      ++ createMembers exclusions path ms ns

end

/-- `any::diff`.  A value that nothing was pushed to is null. -/
def diff (lhs rhs : Any) (exclusions : List Key) (_caseSensitive : Bool) : Any :=
  match createPatches exclusions [] lhs rhs with
  | [] => .null
  | patches => .array patches

/-! ## `any::patch` -/

/-- How `apply` can fail.  What the source leaves undefined (an iterator used at the end of its array
or after its element was erased, a null pointer) is the last of these. -/
inductive Failure
  | invalidArgument
  | outOfRange
  | undefined
  deriving DecidableEq, Repr

inductive PatchOpcode
  | add
  | remove
  | replace
  | copy
  | move
  | test
  | invalid
  deriving DecidableEq, Repr

def toLower (c : UInt8) : UInt8 := if 65 ≤ c ∧ c ≤ 90 then c + 32 else c

/-- `any::decode_patch_operation` -/
def decodePatchOperation : Any → PatchOpcode
  | .string op =>
    let lower := op.map toLower
    if lower = text "add" then .add
    else if lower = text "remove" then .remove
    else if lower = text "replace" then .replace
    else if lower = text "copy" then .copy
    else if lower = text "move" then .move
    else if lower = text "test" then .test
    else .invalid
  | _ => .invalid

/-- `ncheck_error_action` -/
def check (ok : Bool) : Except Failure Unit := if ok then .ok () else .error .invalidArgument

/-- A pointer or iterator that has to be set. -/
def deref {α : Type} : Option α → Except Failure α
  | some x => .ok x
  | none => .error .undefined

/-- The child that was found, in its parent. -/
def Found.target (f : Found) (t : Any) : Except Failure (List Sel × Sel × Any) := do
  let place ← deref f.parent
  let sel ← deref f.child
  let value ← deref (getAt (place ++ [sel]) t)
  pure (place, sel, value)

/-- Put a value at the position that was found: `if ( add )`. -/
def insertAt (t : Any) (f : Found) (place : List Sel) (value : Any) : Except Failure Any := do
  let parent ← deref (getAt place t)
  match parent with
  | .array xs =>
    if f.tokens.getLast? = some dash then
      pure (modifyAt place (fun _ => .array (xs ++ [value])) t)
    else match stoi (f.tokens.getLast?.getD []) with
      | none => throw .outOfRange
      | some i =>
        if 0 ≤ i ∧ i ≤ xs.length then
          pure (modifyAt place (fun _ => .array (xs.insertIdx i.toNat value)) t)
        else throw .undefined
  | .object ms =>
    if f.valid then do
      let sel ← deref f.child
      pure (modifyAt place (fun p => setChild p sel value) t)
    else
      -- the first token of the path, also where the parent is not the root
      let k := f.tokens.head?.getD []
      pure (modifyAt place
        (fun p => if (ms.lookup k).isSome then p else .object (ms ++ [(k, value)])) t)
  | _ => pure t

/-- Where `find.parent` is when the child `sel` of the container at `from_` has been erased.  Erasing
in the middle of a deque invalidates every reference into it, erasing at an end only one. -/
def survives (t : Any) (from_ : List Sel) (sel : Sel) (place : List Sel) : Option (List Sel) :=
  if from_.isPrefixOf place then
    match place.drop from_.length, sel, getAt from_ t with
    | .elem j :: rest, .elem n, some (.array xs) =>
      if j = n then none
      else if n = 0 then some (from_ ++ .elem (j - 1) :: rest)
      else if n + 1 = xs.length then some place
      else none
    | s :: _, _, _ => if s = sel then none else some place
    | [], _, _ => some place
  else some place

/-- `any::apply`; nothing has changed when it fails. -/
def apply (t patch : Any) : Except Failure Any := do
  let op := decodePatchOperation (patch.member (text "op"))
  let value := patch.member (text "value")
  check (decide (op ≠ .invalid))
  match patch.member (text "path") with
  | .string path =>
    match op with
    | .test => do
      check (find t path).valid
      pure t
    | op =>
      if path.isEmpty then
        match op with
        | .remove => pure .null
        | .replace | .add => do
          check (!value.isNull)
          pure value
        | _ => pure t
      else
        let found := find t path
        match op with
        | .add => do
          check (found.valid || found.distance == 1)
          check found.parent.isSome
          check (!value.isNull)
          insertAt t found (← deref found.parent) value
        | .remove => do
          check found.valid
          check found.parent.isSome
          let (place, sel, _) ← found.target t
          pure (modifyAt place (fun p => eraseChild p sel) t)
        | .replace => do
          check found.valid
          check found.parent.isSome
          check (!value.isNull)
          let (place, sel, _) ← found.target t
          pure (modifyAt place (fun p => setChild p sel value) t)
        | .copy =>
          match patch.member (text "from") with
          | .string from_ => do
            check (found.valid || found.distance == 1)
            let source := find t from_
            check source.valid
            let (_, _, copied) ← source.target t
            insertAt t found (← deref found.parent) copied
          | _ => throw .invalidArgument
        | .move =>
          match patch.member (text "from") with
          | .string from_ => do
            check (found.valid || found.distance == 1)
            let source := find t from_
            check source.valid
            let (place, sel, moved) ← source.target t
            let parent ← deref found.parent
            let t' := modifyAt place (fun p => eraseChild p sel) t
            if found.valid && found.parent == some place && found.child == some sel
                && !((getAt place t).map isArray == some true) then
              throw .undefined
            insertAt t' found (← deref (survives t place sel parent)) moved
          | _ => throw .invalidArgument
        | _ => pure t
  | _ => throw .invalidArgument

/-- The loop of `patch`. -/
def patchAll : Any → List Any → Any × Option Failure
  | t, [] => (t, none)
  | t, p :: patches =>
    match apply t p with
    | .ok t' => patchAll t' patches
    | .error e => (t, some e)

/-- `any::patch`: the value that is left, and the error. -/
def patch (t : Any) : Any → Any × Option Failure
  | .array patches => patchAll t patches
  | _ => (t, some .invalidArgument)

end Nodeoze.Any
