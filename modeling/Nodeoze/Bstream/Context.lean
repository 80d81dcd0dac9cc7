import Mathlib.Algebra.Order.Ring.Int
import Nodeoze.Bstream.Value
import Mathlib.Data.List.Sort
import Mathlib.Data.Finset.Card

/-!
# Classes, contexts and well-typed values

`Program` collects what the compiler knows about the classes of a program: the base and member
lists of their BSTRM macros, the inheritance relation, where a base lies inside a derived object,
and the comparison objects the associative containers are instantiated with.  A `Context` adds
the run-time context of a stream: the registered classes in tag order, pointer deduplication and
the byte order.  `HasTy` says which values a C++ variable of a type can hold.
-/

namespace Nodeoze.Bstream

/-- The classes of a program, each named by a number. -/
structure Program where
  bases : Nat → List Nat
  members : Nat → List Ty
  isAbstract : Nat → Bool
  isPolymorphic : Nat → Bool
  /-- `isBaseOf b d` is `std::is_base_of< b, d >`. -/
  isBaseOf : Nat → Nat → Bool
  /-- `offset d b` is the distance of the subobject of class `b` from the start of an object of
  class `d`. -/
  offset : Nat → Nat → Nat
  less : Nat → Val → Val → Bool
  equal : Nat → Val → Val → Bool
  /-- The conversion of a `float` pattern to a `double` pattern. -/
  widen : Nat → Nat
  isBaseOf_self : ∀ c, isBaseOf c c = true
  offset_self : ∀ c, offset c c = 0
  count_lt : ∀ c, (bases c).length + (members c).length < 2 ^ 32
  less_asymm : ∀ i a b, less i a b = true → less i b a = false
  /-- Comparisons look at contents, not at the addresses of shared objects. -/
  less_erase : ∀ i a b, less i a.erase b.erase = less i a b
  equal_erase : ∀ i a b, equal i a.erase b.erase = equal i a b

namespace Program

/-- The comparison of a program without associative containers. -/
def compareNone (_ : Nat) (_ _ : Val) : Bool := false

theorem compareNone_asymm (i : Nat) (a b : Val) (h : compareNone i a b = true) :
    compareNone i b a = false := by
  cases h

theorem compareNone_erase (i : Nat) (a b : Val) :
    compareNone i a.erase b.erase = compareNone i a b := rfl

/-- Every base at the start of its object. -/
def offsetNone (_ _ : Nat) : Nat := 0

theorem offsetNone_self (c : Nat) : offsetNone c c = 0 := rfl

end Program

/-- A stream context over a program. -/
structure Context extends Program where
  types : List Nat
  dedupSharedPtrs : Bool
  order : Endian.Order
  types_lt : types.length < 2 ^ 31

namespace Context

variable (C : Context)

/-- What a BSTRM class streams, in order: its bases, then its members. -/
def parts (c : Nat) : List Ty := (C.bases c).map .cls ++ C.members c

/-- `_streamed_item_count` -/
def itemCount (c : Nat) : Nat := (C.bases c).length + (C.members c).length

@[simp] theorem length_parts (c : Nat) : (C.parts c).length = C.itemCount c := by
  simp [parts, itemCount]

/-- `context_impl::get_type_tag`; `-1` is the invalid tag. -/
def typeTag : Ty → Int
  | .cls c => if c ∈ C.types then (C.types.idxOf c : Nat) else -1
  | _ => -1

/-- The class a tag stands for; `none` is an index outside the tables. -/
def typeAt (tag : Int) : Option Nat := if 0 ≤ tag then C.types[tag.toNat]? else none

theorem typeAt_typeTag {c : Nat} (h : c ∈ C.types) : C.typeAt (C.typeTag (.cls c)) = some c := by
  have hlt : C.types.idxOf c < C.types.length := List.idxOf_lt_length_of_mem h
  simp [typeAt, typeTag, h, List.getElem?_eq_getElem hlt]

theorem typeTag_bounds (t : Ty) : -1 ≤ C.typeTag t ∧ C.typeTag t < 2 ^ 31 := by
  have hlen := C.types_lt
  unfold typeTag
  split
  · next c =>
    split_ifs with h
    · have hlt : C.types.idxOf c < C.types.length := List.idxOf_lt_length_of_mem h
      omega
    · omega
  · omega

theorem typeTag_inRange (t : Ty) : InRange true .w32 (C.typeTag t) := by
  have h := C.typeTag_bounds t
  simp only [InRange, if_true, Width.size]
  omega

/-- `std::is_abstract` of a pointee type. -/
def abstractTy : Ty → Bool
  | .cls c => C.isAbstract c
  | _ => false

end Context

/-! ### Associative containers -/

/-- Insertion into a sorted list without equivalent elements. -/
def insertUnique {α : Type} (lt : α → α → Bool) (x : α) : List α → List α
  | [] => [x]
  | y :: ys => if lt x y then x :: y :: ys else if lt y x then y :: insertUnique lt x ys else y :: ys

/-- `emplace` and `insert` of the associative containers.  The list is the iteration order; of an
unordered container, whose iteration order is no part of its value, it is the order of
insertion. -/
def Program.emplace (P : Program) (key : Val → Val) (k : Assoc) (x : Val) (l : List Val) :
    List Val :=
  match k with
  | .ordered i => insertUnique (fun a b => P.less i (key a) (key b)) x l
  | .orderedMulti i => l.orderedInsert (fun a b => P.less i (key a) (key b)) x
  | .unordered i => if l.any fun y => P.equal i (key y) (key x) then l else l ++ [x]
  | .unorderedMulti => l ++ [x]

/-- What holds between an element and each later one in the iteration order. -/
def Program.Precedes (P : Program) (key : Val → Val) (k : Assoc) (a b : Val) : Prop :=
  match k with
  | .ordered i => P.less i (key a) (key b) = true
  | .orderedMulti i => P.less i (key b) (key a) = false
  | .unordered i => P.equal i (key a) (key b) = false
  | .unorderedMulti => True

/-- The key of a map's element, which is streamed as a pair. -/
def Val.first : Val → Val
  | .seq (k :: _) => k
  | v => v

theorem Val.first_rename (f : Nat → Nat) (v : Val) : (v.rename f).first = v.first.rename f := by
  cases v with
  | seq vs => cases vs <;> rfl
  | _ => rfl

variable {P : Program} {key : Val → Val} {k : Assoc}

theorem insertUnique_of_forall_lt {α : Type} {lt : α → α → Bool} {x : α} {l : List α}
    (hasymm : ∀ a b, lt a b = true → lt b a = false) (h : ∀ y ∈ l, lt y x = true) :
    insertUnique lt x l = l ++ [x] := by
  induction l with
  | nil => rfl
  | cons y ys ih =>
    obtain ⟨hy, hys⟩ := List.forall_mem_cons.mp h
    simp [insertUnique, hasymm y x hy, hy, ih hys]

theorem orderedInsert_of_forall_not {α : Type} {lt : α → α → Bool} {x : α} {l : List α}
    (h : ∀ y ∈ l, lt x y = false) : l.orderedInsert (fun a b => lt a b) x = l ++ [x] := by
  induction l with
  | nil => rfl
  | cons y ys ih =>
    obtain ⟨hy, hys⟩ := List.forall_mem_cons.mp h
    simp [List.orderedInsert, hy, ih hys]

/-- An element that belongs behind all others goes there. -/
theorem emplace_of_forall_precedes {x : Val} {l : List Val}
    (h : ∀ y ∈ l, P.Precedes key k y x) : P.emplace key k x l = l ++ [x] := by
  cases k with
  | ordered i =>
    exact insertUnique_of_forall_lt (fun a b => P.less_asymm i (key a) (key b)) h
  | orderedMulti i => exact orderedInsert_of_forall_not h
  | unordered i =>
    have hany : l.any (fun y => P.equal i (key y) (key x)) = false := by
      rw [List.any_eq_false]
      intro y hy hyx
      rw [h y hy] at hyx
      cases hyx
    simp [Program.emplace, hany]
  | unorderedMulti => rfl

theorem precedes_erase_iff (hkey : ∀ v : Val, key v.erase = (key v).erase) {a b : Val} :
    P.Precedes key k a.erase b.erase ↔ P.Precedes key k a b := by
  cases k <;> simp [Program.Precedes, hkey, P.less_erase, P.equal_erase]

theorem pairwise_precedes_of_erase (hkey : ∀ v : Val, key v.erase = (key v).erase)
    {vs vs' : List Val} (h : vs.Pairwise (P.Precedes key k))
    (he : vs'.map Val.erase = vs.map Val.erase) : vs'.Pairwise (P.Precedes key k) := by
  have h1 : (vs.map Val.erase).Pairwise (P.Precedes key k) :=
    List.pairwise_map.mpr (h.imp (precedes_erase_iff hkey).mpr)
  rw [← he] at h1
  exact (List.pairwise_map.mp h1).imp (precedes_erase_iff hkey).mp

/-! ### Well-typed values -/

variable (C : Context)

/-- The dynamic types that an object behind a pointer of static type `t` can have: through a
registered class, the registered concrete classes derived from it (its own class only, if it is
not polymorphic); through any other type, that type. -/
inductive Context.Points : Ty → Ty → Prop
  | registered {h d : Nat} : h ∈ C.types → d ∈ C.types → C.isBaseOf h d = true →
      C.isAbstract d = false → (d = h ∨ C.isPolymorphic h = true) → Points (.cls h) (.cls d)
  | plain {t : Ty} : C.typeTag t = -1 → C.abstractTy t = false → Points t t

/-- Values of the underlying type of an enumeration. -/
inductive HasUnderlying : Underlying → Val → Prop
  | bool (b : Bool) : HasUnderlying .bool (.bool b)
  | int {sg : Bool} {w : Width} {i : Int} : InRange sg w i →
      HasUnderlying (.int sg w) (.int sg w i)

/-- `HasTy C t v`: a variable of type `t` can hold the value `v`, every string, blob and container
in it is shorter than `2 ^ 32`, and its shared objects are of class type. -/
inductive HasTy : Ty → Val → Prop
  | bool (b : Bool) : HasTy .bool (.bool b)
  | int {sg : Bool} {w : Width} {i : Int} : InRange sg w i → HasTy (.int sg w) (.int sg w i)
  | enum {u : Underlying} {v : Val} : HasUnderlying u v → HasTy (.enum u) v
  | float {n : Nat} : n < 2 ^ 32 → HasTy .float (.float n)
  | double {n : Nat} : n < 2 ^ 64 → HasTy .double (.double n)
  | string {bs : List UInt8} : bs.length < 2 ^ 32 → HasTy .string (.string bs)
  | buffer {bs : List UInt8} : bs.length < 2 ^ 32 → HasTy .buffer (.buffer bs)
  | pair {a b : Ty} {x y : Val} : HasTy a x → HasTy b y → HasTy (.pair a b) (.seq [x, y])
  | tuple {ts : List Ty} {vs : List Val} : ts.length < 2 ^ 32 → vs.length = ts.length →
      (∀ (i : Nat) t v, ts[i]? = some t → vs[i]? = some v → HasTy t v) → HasTy (.tuple ts) (.seq vs)
  | seq {k : Sequence} {t : Ty} {vs : List Val} : vs.length < 2 ^ 32 → (∀ v ∈ vs, HasTy t v) →
      HasTy (.seq k t) (.seq vs)
  | set {k : Assoc} {t : Ty} {vs : List Val} : vs.length < 2 ^ 32 → (∀ v ∈ vs, HasTy t v) →
      vs.Pairwise (C.Precedes id k) → HasTy (.set k t) (.seq vs)
  | map {k : Assoc} {kt vt : Ty} {vs : List Val} : vs.length < 2 ^ 32 →
      (∀ v ∈ vs, HasTy (.pair kt vt) v) → vs.Pairwise (C.Precedes Val.first k) →
      HasTy (.map k kt vt) (.seq vs)
  | cls {c : Nat} {vs : List Val} : vs.length = C.itemCount c →
      (∀ (i : Nat) t v, (C.parts c)[i]? = some t → vs[i]? = some v → HasTy t v) →
      HasTy (.cls c) (.obj c vs)
  | nullUnique (t : Ty) : HasTy (.uniquePtr t) .null
  | nullShared (t : Ty) : HasTy (.sharedPtr t) .null
  | own {t d : Ty} {v : Val} : C.Points t d → HasTy d v → HasTy (.uniquePtr t) (.own t v)
  | shared {h d a : Nat} {v : Val} : C.Points (.cls h) (.cls d) → a < 2 ^ 64 →
      HasTy (.cls d) v → HasTy (.sharedPtr (.cls h)) (.shared (.cls h) a v)

end Nodeoze.Bstream
