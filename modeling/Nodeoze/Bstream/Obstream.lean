import Nodeoze.Bstream.Context

/-!
# Writing values

`put` is `operator<<` of an `obstream`, for every serializer of `obstream.h`, `stdlib/` and the
BSTRM macros: the chunks it puts on the stream and the table of shared pointers it has saved.
-/

namespace Nodeoze.Bstream

open Reader

/-- `obstream::ptr_deduper`: the saved pointers with their type tag and serial number.  A pointer
is the address of an object and the distance of the subobject it points at. -/
structure SavedTags where
  ptrs : List ((Nat × Nat) × (Int × Nat)) := []
  next : Nat := 0

namespace SavedTags

/-- `ptr_deduper::is_saved` -/
def find (s : SavedTags) (ptr : Nat × Nat) : Option (Int × Nat) := s.ptrs.lookup ptr

/-- `ptr_deduper::save_ptr`; `emplace` keeps an entry that is already there. -/
def save (s : SavedTags) (ptr : Nat × Nat) (tag : Int) : SavedTags :=
  { ptrs := if (s.find ptr).isSome then s.ptrs else s.ptrs ++ [(ptr, (tag, s.next))]
    next := s.next + 1 }

end SavedTags

/-- The dynamic type of the object behind a pointer, as `typeid( *ptr )` finds it. -/
def Val.dynamicTy (held : Ty) : Val → Ty
  | .obj d _ => .cls d
  | _ => held

/-- The distance of the subobject that a pointer of static type `held` points at. -/
def Context.subobject (C : Context) (held : Ty) (v : Val) : Nat :=
  match held, v with
  | .cls h, .obj d _ => C.offset d h
  | _, _ => 0

namespace Context

variable (C : Context)

/-- How every pointer starts: a two-element array whose first element is the type tag. -/
def writeTypeTag (tag : Int) : List Chunk := writeArrayHeader C.order 2 ++ putInt C.order true tag

/-- `obstream::write_null_ptr` -/
def writeNullPtr : List Chunk := C.writeTypeTag (-1) ++ [.byte Typecode.nil]

mutual

def put : Val → SavedTags → Except Fault (List Chunk × SavedTags)
  | .bool b, s => .ok (putBool b, s)
  | .int sg _ i, s => .ok (putInt C.order sg i, s)
  | .float word, s => .ok (putFloat C.order word, s)
  | .double word, s => .ok (putDouble C.order word, s)
  | .string bs, s => (putString C.order bs).map fun ts => (ts, s)
  | .buffer bs, s => .ok (writeBlob C.order bs, s)
  | .seq vs, s =>
    -- pairs, tuples and every container; an element of a map is written as a pair
    (putAll vs s).map fun (ts, s') => (writeArrayHeader C.order vs.length ++ ts, s')
  | .obj c parts, s =>
    -- `streaming_base::_serialize`, then the bases and the members
    (putAll parts s).map fun (ts, s') => (writeArrayHeader C.order (C.itemCount c) ++ ts, s')
  | .null, s => .ok (C.writeNullPtr, s)
  | .own held v, s =>
    (put v s).map fun (ts, s') => (C.writeTypeTag (C.typeTag (v.dynamicTy held)) ++ ts, s')
  | .shared held a v, s =>
    let ptr := (a, C.subobject held v)
    let tag := C.typeTag (v.dynamicTy held)
    if C.dedupSharedPtrs then
      match s.find ptr with
      | some (savedTag, serial) => .ok (C.writeTypeTag savedTag ++ putUnsigned C.order serial, s)
      | none => (put v s).map fun (ts, s') => (C.writeTypeTag tag ++ ts, s'.save ptr tag)
    else (put v s).map fun (ts, s') => (C.writeTypeTag tag ++ ts, s')

def putAll : List Val → SavedTags → Except Fault (List Chunk × SavedTags)
  | [], s => .ok ([], s)
  | v :: vs, s =>
    (put v s).bind fun (ts, s') => (putAll vs s').map fun (us, s'') => (ts ++ us, s'')

end

end Context

end Nodeoze.Bstream
