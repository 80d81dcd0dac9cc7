import Nodeoze.Bstream.Obstream

/-!
# Reading values

`readAs` is `ibstream::read_as< T >`, for every deserializer of `ibstream.h`,
`numeric_deserializers.h` and `stdlib/` and for the stream constructors of the BSTRM macros.  The
recursion follows the type, and through classes and pointers it need not end with it, so it is
cut off by a fuel argument; `Fault.fuel` is no error of the code.
-/

namespace Nodeoze.Bstream

open Reader

/-- `ibstream::ptr_deduper`, with the address that the next allocation will return. -/
structure SavedPtrs where
  saved : List (Ty × Nat × Val) := []
  next : Nat := 0

/-- Readers of an `ibstream` with its table of saved pointers. -/
abbrev Read (α : Type) : Type := Istream SavedPtrs α

def readUnderlying (o : Endian.Order) : Underlying → Read Val
  | .bool => do
    let b ← getBool
    pure (.bool b)
  | .int sg w => do
    let i ← getInt o sg w
    pure (.int sg w i)

namespace Context

variable (C : Context) (rec : Ty → Read Val)

/-- `context_impl_base::create_raw` and `create_shared`: the object that the factory of the tag
reads, as seen through a pointer of static type `t`; the factory of an abstract class returns a
null pointer.  The object travels as a `void*`, so the final cast keeps its address, which is that
of the wrong subobject when the static type does not lie at its start. -/
def create (t : Ty) (tag : Int) : Read (Option Val) :=
  match C.typeAt tag, C.typeAt (C.typeTag t) with
  | some d, some h =>
    if C.isBaseOf h d then
      if C.isAbstract d then pure none
      else do
        let v ← rec (.cls d)
        if C.offset d h = 0 then pure (some v) else throw .undefined
    else throw (.system .invalidPtrDowncast)
  | _, _ => throw .undefined

/-- The object of `deserialize_as_unique_ptr` and `deserialize_as_shared_ptr`. -/
def deserializePointee (t : Ty) (tag : Int) : Read (Option Val) :=
  if tag = -1 then
    if C.abstractTy t then throw (.system .abstractNonPolyClass)
    else do
      let v ← rec t
      pure (some v)
  else C.create rec t tag

/-- How every pointer starts: a two-element array whose first element is the type tag. -/
def readTypeTag : Read Int := do
  let n ← readArrayHeader C.order
  if n = 2 then getInt C.order true .w32 else throw (.system .typeError)

/-- `ibstream::read_as_unique_ptr` -/
def readAsUniquePtr (t : Ty) : Read Val := do
  let tag ← C.readTypeTag
  let code ← peek eof
  if code = Typecode.nil then
    let _ ← get eof
    pure .null
  else
    let object ← C.deserializePointee rec t tag
    match object with
    | some v => pure (.own t v)
    | none => pure .null

/-- `std::is_polymorphic` of a pointee type. -/
def polymorphicTy : Ty → Bool
  | .cls c => C.isPolymorphic c
  | _ => false

/-- `typeid( *ptr )` of a pointer of static type `t` at the object `v`. -/
def typeidOf (t : Ty) (v : Val) : Ty := if C.polymorphicTy t then v.dynamicTy t else t

/-- A new shared object, saved by `ibstream::ptr_deduper::save_ptr` if there is a deduper. -/
def allocate (t : Ty) (v : Val) (s : SavedPtrs) : SavedPtrs :=
  { saved := if C.dedupSharedPtrs then s.saved ++ [(C.typeidOf t v, s.next, v)] else s.saved
    next := s.next + 1 }

/-- `ibstream::deserialize_as_shared_ptr` -/
def deserializeAsSharedPtr (t : Ty) (tag : Int) : Read Val := do
  let object ← C.deserializePointee rec t tag
  let s ← getUser
  match object with
  | some v =>
    setUser (C.allocate t v s)
    pure (.shared t s.next v)
  | none =>
    if C.dedupSharedPtrs then
      if C.polymorphicTy t then throw .badTypeid
      else do
        -- the null pointer is saved under its static type
        setUser { s with saved := s.saved ++ [(t, s.next, .null)] }
        pure .null
    else pure .null

/-- A saved null pointer: there is no object of the class. -/
def noObject : Ty → Val → Bool
  | .cls _, .null => true
  | _, _ => false

/-- A copy of a saved pointer. -/
def savedPtr (t savedTy : Ty) (a : Nat) (v : Val) : Val :=
  if noObject savedTy v then .null else .shared t a v

/-- `ibstream::get_saved_ptr` -/
def getSavedPtr (t : Ty) (tag : Int) : Read Val :=
  if C.dedupSharedPtrs then do
    let index ← getInt C.order false .w64
    let s ← getUser
    match s.saved[index.toNat]? with
    | none => throw .undefined
    | some (savedTy, a, v) =>
      if -1 < tag then
        if C.typeTag savedTy = tag then
          match C.typeAt tag, C.typeAt (C.typeTag t) with
          | some d, some h =>
            if C.isBaseOf h d then
              if C.offset d h = 0 ∨ noObject savedTy v then pure (savedPtr t savedTy a v)
              else throw .undefined
            else throw (.system .invalidPtrDowncast)
          | _, _ => throw .undefined
        else throw (.system .typeError)
      else if savedTy.same t then pure (savedPtr t savedTy a v)
      else throw (.system .typeError)
  else throw (.system .contextMismatch)

/-- `ibstream::read_as_shared_ptr` -/
def readAsSharedPtr (t : Ty) : Read Val := do
  let tag ← C.readTypeTag
  let code ← peek eof
  if code = Typecode.nil then
    let _ ← get eof
    pure .null
  else if Typecode.isPositiveInt code then C.getSavedPtr t tag
  else C.deserializeAsSharedPtr rec t tag

/-- The stream constructor of a BSTRM class: `streaming_base`, then the bases and the members. -/
def readClass (c : Nat) : Read Val := do
  let length ← readArrayHeader C.order
  if length = C.itemCount c then
    let parts ← each ((C.parts c).map rec)
    pure (.obj c parts)
  else throw (.system .memberCountError)

/-- The deserializers of the containers: the element count, then one element per round of a loop
that adds it to the container. -/
def readContainer (add : Val → List Val → List Val) (t : Ty) : Read Val := do
  let length ← readArrayHeader C.order
  let vs ← loop (fun acc => do
    let v ← rec t
    pure (add v acc)) length []
  pure (.seq vs)

/-- `ibstream::read_as` -/
def readAs : Nat → Ty → Read Val
  | 0, _ => throw .fuel
  | _ + 1, .bool => do
    let b ← getBool
    pure (.bool b)
  | _ + 1, .int sg w => do
    let i ← getInt C.order sg w
    pure (.int sg w i)
  | _ + 1, .enum u => readUnderlying C.order u
  | _ + 1, .float => do
    let word ← getFloat C.order
    pure (.float word)
  | _ + 1, .double => do
    let word ← getDouble C.widen C.order
    pure (.double word)
  | _ + 1, .string => do
    let bs ← getString C.order
    pure (.string bs)
  | _ + 1, .buffer => do
    let bs ← readBlob C.order
    pure (.buffer bs)
  | fuel + 1, .pair a b => do
    checkArrayHeader C.order 2
    let x ← readAs fuel a
    let y ← readAs fuel b
    pure (.seq [x, y])
  | fuel + 1, .tuple ts => do
    checkArrayHeader C.order ts.length
    let vs ← each (ts.map (readAs fuel))
    pure (.seq vs)
  | fuel + 1, .seq _ t => C.readContainer (readAs fuel) (fun v acc => acc ++ [v]) t
  | fuel + 1, .set k t => C.readContainer (readAs fuel) (C.emplace id k) t
  | fuel + 1, .map k kt vt => C.readContainer (readAs fuel) (C.emplace Val.first k) (.pair kt vt)
  | fuel + 1, .cls c => C.readClass (readAs fuel) c
  | fuel + 1, .uniquePtr t => C.readAsUniquePtr (readAs fuel) t
  | fuel + 1, .sharedPtr t => C.readAsSharedPtr (readAs fuel) t

end Context

end Nodeoze.Bstream
