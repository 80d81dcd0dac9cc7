import Nodeoze.Any.Stream
import Nodeoze.Lib.Msgpack

/-!
# Values as msgpack

`mpack::deflate` drives the packer of the msgpack library over a value, and `mpack::inflate` takes
the object apart that the library unpacks.  The library is a parameter: the bytes that its packer
appends for each call, and the object that it unpacks, or an exception.  `Packed` says which calls
pack an object, and what is relied on is that these are unpacked to it.

There are two ways in.  From a string the value comes back that was built so far, whatever the error
code.  From a buffer the error code is taken for success: a value that was built is dropped.
-/

namespace Nodeoze.Any

/-- `msgpack::object` -/
inductive MsgpackObject
  | nil
  | boolean (b : Bool)
  | positiveInteger (u : UInt64)
  | negativeInteger (i : Int64)
  | float32 (word : UInt64)
  | float64 (word : UInt64)
  | str (bytes : List UInt8)
  | bin (bytes : List UInt8)
  | array (items : List MsgpackObject)
  | map (items : List (MsgpackObject × MsgpackObject))
  | ext

/-- The msgpack library: what `packer` appends, and `msgpack::unpack`. -/
structure MsgpackLibrary where
  packNil : List UInt8
  packBool : Bool → List UInt8
  packInt64 : Int64 → List UInt8
  packDouble : UInt64 → List UInt8
  packString : List UInt8 → List UInt8
  packBin : UInt32 → List UInt8
  packArray : UInt32 → List UInt8
  packMap : UInt32 → List UInt8
  unpack : List UInt8 → Option MsgpackObject

variable (L : MsgpackLibrary)

mutual

/-- `deflate` into a packer -/
def deflate : Any → List UInt8
  | .null => L.packNil
  | .boolean b => L.packBool b
  | .integer i => L.packInt64 i
  | .floating w => L.packDouble w
  | .string bs => L.packString bs
  | .blob bs => L.packBin (UInt32.ofNat bs.length) ++ bs
  | .array xs => L.packArray (UInt32.ofNat xs.length) ++ deflateAll xs
  | .object ms => L.packMap (UInt32.ofNat ms.length) ++ deflateMembers ms

def deflateAll : List Any → List UInt8
  | [] => []
  | x :: xs => deflate x ++ deflateAll xs

def deflateMembers : List (Key × Any) → List UInt8
  | [] => []
  | (k, v) :: ms => L.packString k ++ deflate v ++ deflateMembers ms

end

mutual

/-- `inflate` of an object, into a value.  The flag is the error code `illegal_byte_sequence`. -/
def inflate (root : Any) : MsgpackObject → Any × Bool
  | .nil => (.null, false)
  | .boolean b => (.boolean b, false)
  | .positiveInteger u => (.integer u.toInt64, false)
  | .negativeInteger i => (.integer i, false)
  | .float32 w => (.floating w, false)
  | .float64 w => (.floating w, false)
  | .str bs => (.string bs, false)
  | .bin bs => (.blob bs, false)
  | .array items =>
    let (xs, err) := inflateAll [] items
    (.array xs, err)
  | .map items =>
    let (ms, err) := inflateMembers [] items
    (.object ms, err)
  | .ext => (root, false)

def inflateAll (xs : List Any) : List MsgpackObject → List Any × Bool
  | [] => (xs, false)
  | item :: items =>
    match inflate .null item with
    | (_, true) => (xs, true)
    | (element, false) => inflateAll (xs ++ [element]) items

def inflateMembers (ms : List (Key × Any)) : List (MsgpackObject × MsgpackObject) → List (Key × Any) × Bool
  | [] => (ms, false)
  | (.str k, val) :: items =>
    match inflate .null val with
    | (_, true) => (ms, true)
    | (v, false) => inflateMembers (emplace ms k v) items
  | (_, _) :: _ => (ms, true)

end

/-- `parser::process`; `none` is an exception. -/
def process (root : Any) (bs : List UInt8) : Option (Any × Bool) := (L.unpack bs).map (inflate root)

/-- `mpack::inflate( const std::string & )` -/
def inflateString (bs : List UInt8) : Option Any := (process L .null bs).map Prod.fst

/-- `mpack::inflate( any &, const buffer & )` -/
def inflateInto (root : Any) (bs : List UInt8) : Option (Any × Bool) :=
  if bs.length < 1 then some (root, false) else process L root bs

/-- `mpack::inflate( const buffer & )` -/
def inflateBuffer (bs : List UInt8) : Option Any :=
  (inflateInto L .null bs).map fun (root, err) => if err then root else .null

/-! ## What is packed -/

mutual

/-- The object that a value is packed as. -/
def toObject : Any → MsgpackObject
  | .null => .nil
  | .boolean b => .boolean b
  | .integer i => if 0 ≤ i then .positiveInteger i.toUInt64 else .negativeInteger i
  | .floating w => .float64 w
  | .string bs => .str bs
  | .blob bs => .bin bs
  | .array xs => .array (toObjects xs)
  | .object ms => .map (toPairs ms)

def toObjects : List Any → List MsgpackObject
  | [] => []
  | x :: xs => toObject x :: toObjects xs

def toPairs : List (Key × Any) → List (MsgpackObject × MsgpackObject)
  | [] => []
  | (k, v) :: ms => (.str k, toObject v) :: toPairs ms

end

mutual

/-- The bytes of the calls that pack an object. -/
inductive Packed : MsgpackObject → List UInt8 → Prop
  | nil : Packed .nil L.packNil
  | boolean (b : Bool) : Packed (.boolean b) (L.packBool b)
  | positiveInteger (i : Int64) (h : 0 ≤ i) : Packed (.positiveInteger i.toUInt64) (L.packInt64 i)
  | negativeInteger (i : Int64) (h : i < 0) : Packed (.negativeInteger i) (L.packInt64 i)
  | float64 (w : UInt64) : Packed (.float64 w) (L.packDouble w)
  | str (bs : List UInt8) (h : bs.length < 2 ^ 32) : Packed (.str bs) (L.packString bs)
  | bin (bs : List UInt8) (h : bs.length < 2 ^ 32) :
      Packed (.bin bs) (L.packBin (UInt32.ofNat bs.length) ++ bs)
  | array {items : List MsgpackObject} {bs : List UInt8} (h : items.length < 2 ^ 32)
      (hitems : PackedAll items bs) :
      Packed (.array items) (L.packArray (UInt32.ofNat items.length) ++ bs)
  | map {items : List (MsgpackObject × MsgpackObject)} {bs : List UInt8} (h : items.length < 2 ^ 32)
      (hitems : PackedPairs items bs) :
      Packed (.map items) (L.packMap (UInt32.ofNat items.length) ++ bs)

inductive PackedAll : List MsgpackObject → List UInt8 → Prop
  | nil : PackedAll [] []
  | cons {o : MsgpackObject} {os : List MsgpackObject} {bs cs : List UInt8} (h : Packed o bs)
      (hos : PackedAll os cs) : PackedAll (o :: os) (bs ++ cs)

inductive PackedPairs : List (MsgpackObject × MsgpackObject) → List UInt8 → Prop
  | nil : PackedPairs [] []
  | cons {k v : MsgpackObject} {os : List (MsgpackObject × MsgpackObject)} {bs cs ds : List UInt8}
      (hk : Packed k bs) (hv : Packed v cs) (hos : PackedPairs os ds) :
      PackedPairs ((k, v) :: os) (bs ++ cs ++ ds)

end

/-- An object is unpacked from the bytes that were packed for it. -/
def Unpacks (o : MsgpackObject) : Prop := ∀ bs, Packed L o bs → L.unpack bs = some o

theorem length_toObjects (xs : List Any) : (toObjects xs).length = xs.length := by
  induction xs with
  | nil => rfl
  | cons x xs ih => simp [toObjects, ih]

theorem length_toPairs (ms : List (Key × Any)) : (toPairs ms).length = ms.length := by
  induction ms with
  | nil => rfl
  | cons m ms ih => simp [toPairs, ih]

theorem packedAll_deflate {xs : List Any} (h : ∀ x ∈ xs, Packed L (toObject x) (deflate L x)) :
    PackedAll L (toObjects xs) (deflateAll L xs) := by
  induction xs with
  | nil => exact .nil
  | cons x xs ih => exact .cons (h x (by simp)) (ih fun y hy => h y (by simp [hy]))

theorem packedPairs_deflate {ms : List (Key × Any)}
    (h : ∀ m ∈ ms, m.1.length < 2 ^ 32 ∧ Packed L (toObject m.2) (deflate L m.2)) :
    PackedPairs L (toPairs ms) (deflateMembers L ms) := by
  induction ms with
  | nil => exact .nil
  | cons m ms ih =>
    obtain ⟨k, v⟩ := m
    obtain ⟨hk, hv⟩ := h (k, v) (by simp)
    exact .cons (.str k hk) hv (ih fun m hm => h m (by simp [hm]))

/-- A value is packed as its object. -/
theorem packed_deflate (x : Any) (hx : x.WF) : Packed L (toObject x) (deflate L x) := by
  induction x using induct with
  | null => exact .nil
  | boolean b => exact .boolean b
  | integer i =>
    rw [toObject]
    split_ifs with hi
    · exact .positiveInteger i hi
    · exact .negativeInteger i (Int64.not_le.mp hi)
  | floating w => exact .float64 w
  | string bs => exact .str bs hx
  | blob bs => exact .bin bs hx
  | array xs ih =>
    have hxs := (wfAll_iff xs).mp hx.2
    rw [toObject, deflate, ← length_toObjects xs]
    exact .array (by rw [length_toObjects]; exact hx.1)
      (packedAll_deflate L fun y hy => ih y hy (hxs y hy))
  | object ms ih =>
    have hms := (wfMembers_iff ms).mp hx.2.2
    rw [toObject, deflate, ← length_toPairs ms]
    exact .map (by rw [length_toPairs]; exact hx.1)
      (packedPairs_deflate L fun m hm => ⟨(hms m hm).1, ih m hm (hms m hm).2⟩)

/-! ## What is built -/

theorem inflateAll_toObjects {xs : List Any} (h : ∀ x ∈ xs, ∀ root, inflate root (toObject x) = (x, false))
    (acc : List Any) : inflateAll acc (toObjects xs) = (acc ++ xs, false) := by
  induction xs generalizing acc with
  | nil => simp [toObjects, inflateAll]
  | cons x xs ih =>
    rw [toObjects, inflateAll, h x (by simp)]
    simpa using ih (fun y hy => h y (by simp [hy])) (acc ++ [x])

theorem inflateMembers_toPairs {ms : List (Key × Any)}
    (h : ∀ m ∈ ms, ∀ root, inflate root (toObject m.2) = (m.2, false)) (acc : List (Key × Any))
    (hnodup : ((acc ++ ms).map Prod.fst).Nodup) :
    inflateMembers acc (toPairs ms) = (acc ++ ms, false) := by
  induction ms generalizing acc with
  | nil => simp [toPairs, inflateMembers]
  | cons m ms ih =>
    obtain ⟨k, v⟩ := m
    have hk : k ∉ acc.map Prod.fst := by
      rw [List.map_append, List.nodup_append] at hnodup
      intro hmem
      exact hnodup.2.2 k hmem k (by simp) rfl
    have hv : inflate .null (toObject v) = (v, false) := h (k, v) (by simp) .null
    rw [toPairs, inflateMembers, hv]
    simp only [emplace_of_not_mem hk]
    simpa using ih (fun m hm => h m (by simp [hm])) (acc ++ [(k, v)]) (by simpa using hnodup)

/-- The object of a value is built into the value. -/
theorem inflate_toObject (x : Any) (hx : x.WF) (root : Any) : inflate root (toObject x) = (x, false) := by
  induction x using induct generalizing root with
  | integer i =>
    rw [toObject]
    split_ifs with hi
    · simp [inflate]
    · rfl
  | array xs ih =>
    have hxs := (wfAll_iff xs).mp hx.2
    have hall := inflateAll_toObjects (fun y hy root => ih y hy (hxs y hy) root) []
    simp [toObject, inflate, hall]
  | object ms ih =>
    have hms := (wfMembers_iff ms).mp hx.2.2
    have hall := inflateMembers_toPairs (fun m hm root => ih m hm (hms m hm).2 root) []
      (by simpa using hx.2.1)
    simp [toObject, inflate, hall]
  | _ => rfl

mutual

/-- Some map in the object has a key that is not a string. -/
def MsgpackObject.otherKey : MsgpackObject → Bool
  | .array items => otherKeyAll items
  | .map items => otherKeyPairs items
  | _ => false

def MsgpackObject.otherKeyAll : List MsgpackObject → Bool
  | [] => false
  | item :: items => item.otherKey || otherKeyAll items

def MsgpackObject.otherKeyPairs : List (MsgpackObject × MsgpackObject) → Bool
  | [] => false
  | (.str _, val) :: items => val.otherKey || otherKeyPairs items
  | (_, _) :: _ => true

end

/-- Nothing is built from the object. -/
def MsgpackObject.blank : MsgpackObject → Bool
  | .nil => true
  | .ext => true
  | _ => false

theorem blank_iff (o : MsgpackObject) : (inflate .null o).1 = .null ↔ o.blank = true := by
  cases o <;> simp [inflate, MsgpackObject.blank]

mutual

theorem inflate_err (root : Any) : ∀ o : MsgpackObject, (inflate root o).2 = o.otherKey
  | .array items => by
    rw [inflate]
    exact inflateAll_err [] items
  | .map items => by
    rw [inflate]
    exact inflateMembers_err [] items
  | .nil | .boolean _ | .positiveInteger _ | .negativeInteger _ | .float32 _ | .float64 _
  | .str _ | .bin _ | .ext => rfl

theorem inflateAll_err (xs : List Any) : ∀ items : List MsgpackObject,
    (inflateAll xs items).2 = MsgpackObject.otherKeyAll items
  | [] => rfl
  | item :: items => by
    have herr := inflate_err .null item
    rw [inflateAll, MsgpackObject.otherKeyAll, ← herr]
    rcases inflate .null item with ⟨element, _ | _⟩
    · simpa using inflateAll_err (xs ++ [element]) items
    · rfl

theorem inflateMembers_err (ms : List (Key × Any)) :
    ∀ items : List (MsgpackObject × MsgpackObject),
      (inflateMembers ms items).2 = MsgpackObject.otherKeyPairs items
  | [] => rfl
  | (.str k, val) :: items => by
    have herr := inflate_err .null val
    rw [inflateMembers, MsgpackObject.otherKeyPairs, ← herr]
    rcases inflate .null val with ⟨v, _ | _⟩
    · simpa using inflateMembers_err (emplace ms k v) items
    · rfl
  | (.nil, _) :: _ | (.boolean _, _) :: _ | (.positiveInteger _, _) :: _
  | (.negativeInteger _, _) :: _ | (.float32 _, _) :: _ | (.float64 _, _) :: _ | (.bin _, _) :: _
  | (.array _, _) :: _ | (.map _, _) :: _ | (.ext, _) :: _ => rfl

end

/-! ## Both ways in -/

/-- A value comes back through both. -/
def RoundTrips (x : Any) : Prop :=
  (∃ y, inflateBuffer L (deflate L x) = some y ∧ y.equals x = true) ∧
    ∃ y, inflateString L (deflate L x) = some y ∧ y.equals x = true

theorem string_roundTrips {x : Any} (hx : x.WF) (hunpack : Unpacks L (toObject x)) :
    inflateString L (deflate L x) = some x := by
  rw [inflateString, process, hunpack _ (packed_deflate L x hx), Option.map_some,
    inflate_toObject x hx]
  rfl

theorem buffer_drops {x : Any} (hx : x.WF) (hunpack : Unpacks L (toObject x)) :
    inflateBuffer L (deflate L x) = some .null := by
  rw [inflateBuffer, inflateInto, process, hunpack _ (packed_deflate L x hx), Option.map_some,
    inflate_toObject x hx]
  split_ifs <;> rfl

theorem equals_null (x : Any) : Any.null.equals x = true ↔ x = .null := by
  cases x <;> simp [equals]

/-- Only null comes back through both; and the two differ on whatever is built without an error. -/
theorem inflate_iff (hempty : L.unpack [] = none) (x : Any) (hx : x.WF)
    (hunpack : Unpacks L (toObject x)) (bs : List UInt8) :
    (RoundTrips L x ↔ x = .null) ∧
      (inflateBuffer L bs = inflateString L bs ↔
        bs ≠ [] ∧ ∀ o, L.unpack bs = some o → o.otherKey = true ∨ o.blank = true) := by
  constructor
  · rw [RoundTrips, buffer_drops L hx hunpack, string_roundTrips L hx hunpack]
    constructor
    · rintro ⟨⟨y, hy, hequals⟩, -⟩
      obtain rfl : Any.null = y := Option.some.inj hy
      exact (equals_null x).mp hequals
    · intro hnull
      exact ⟨⟨.null, rfl, (equals_null x).mpr hnull⟩, x, rfl, equals_refl x hx⟩
  · by_cases hbs : bs = []
    · subst hbs
      simp [inflateBuffer, inflateInto, inflateString, process, hempty]
    · have hlen : ¬ bs.length < 1 := by
        have := List.length_pos_iff.mpr hbs
        omega
      rw [inflateBuffer, inflateInto, if_neg hlen, inflateString, process]
      cases hunp : L.unpack bs with
      | none => simp [hbs]
      | some o =>
        have herr := inflate_err .null o
        have hblank := blank_iff o
        rcases hinf : inflate .null o with ⟨v, _ | _⟩
        · rw [hinf] at herr hblank
          have hother : o.otherKey = false := herr.symm
          have hnull : Any.null = v ↔ o.blank = true := by
            rw [eq_comm]
            exact hblank
          simp [hbs, hinf, hother, hnull]
        · rw [hinf] at herr
          simp [hbs, hinf, ← herr]

/-- The library on objects that take a byte or two: the sizes are in the type codes, and one object is
unpacked. -/
def shortMsgpack : MsgpackLibrary where
  packNil := [0xc0]
  packBool b := [if b then 0xc3 else 0xc2]
  packInt64 i := [i.toUInt64.toUInt8]
  packDouble w := 0xcb :: Endian.Order.big.bytes 8 w.toNat
  packString bs := Msgpack.strHeader bs.length .fix ++ bs
  packBin n := Msgpack.binHeader n.toNat .w8
  packArray n := Msgpack.arrayHeader n.toNat .fix
  packMap n := Msgpack.mapHeader n.toNat .fix
  unpack bs := if bs = [0x91, 0xc3] then some (.array [.boolean true]) else none

theorem short_unpacks : Unpacks shortMsgpack (toObject (.array [.boolean true])) := by
  intro bs hbs
  obtain _ | _ | _ | _ | _ | _ | _ | ⟨-, hitems⟩ := hbs
  obtain _ | ⟨hitem, hrest⟩ := hitems
  cases hitem
  cases hrest
  rfl

theorem short_dropped :
    (RoundTrips shortMsgpack (.array [.boolean true]) ↔ Any.array [.boolean true] = .null) ∧
      (inflateBuffer shortMsgpack [0x91, 0xc3] = inflateString shortMsgpack [0x91, 0xc3] ↔
        ([0x91, 0xc3] : List UInt8) ≠ [] ∧ ∀ o, shortMsgpack.unpack [0x91, 0xc3] = some o →
          o.otherKey = true ∨ o.blank = true) :=
  inflate_iff shortMsgpack rfl _ (by simp [WF, WFAll]) short_unpacks _

/-- The array comes back from a string and is lost from a buffer. -/
theorem buffer_not_string :
    inflateString shortMsgpack (deflate shortMsgpack (.array [.boolean true]))
        = some (.array [.boolean true]) ∧
      inflateBuffer shortMsgpack (deflate shortMsgpack (.array [.boolean true])) = some .null ∧
      ¬ RoundTrips shortMsgpack (.array [.boolean true]) := by
  refine ⟨rfl, rfl, ?_⟩
  rintro ⟨⟨y, hy, hequals⟩, -⟩
  obtain rfl : Any.null = y := Option.some.inj hy
  exact absurd hequals (by decide)

end Nodeoze.Any
