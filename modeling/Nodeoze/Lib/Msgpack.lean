import Nodeoze.Lib.Endian

/-!
# The msgpack format

The objects of the format and their bytes.  A leaf is a type code followed by a fixed or declared
number of bytes; an array or a map is a header followed by objects, a map with a key and a value
per pair.  Every length has several headers it may be declared in, so an object carries the form
of each of its headers, and `WF` says that the length fits the form.
-/

namespace Msgpack

open Endian

/-- The numbers with a type code of their own. -/
inductive NumCode
  | float32
  | float64
  | uint8
  | uint16
  | uint32
  | uint64
  | int8
  | int16
  | int32
  | int64
  deriving DecidableEq, Repr

def NumCode.byte : NumCode → UInt8
  | .float32 => 0xca
  | .float64 => 0xcb
  | .uint8 => 0xcc
  | .uint16 => 0xcd
  | .uint32 => 0xce
  | .uint64 => 0xcf
  | .int8 => 0xd0
  | .int16 => 0xd1
  | .int32 => 0xd2
  | .int64 => 0xd3

def NumCode.width : NumCode → Nat
  | .uint8 | .int8 => 1
  | .uint16 | .int16 => 2
  | .float32 | .uint32 | .int32 => 4
  | .float64 | .uint64 | .int64 => 8

/-- Where a length is declared: in the type code, or in 1, 2 or 4 bytes behind it. -/
inductive Form
  | fix
  | w8
  | w16
  | w32
  deriving DecidableEq, Repr

/-- A leaf of an object. -/
inductive Leaf
  | fixint (b : UInt8)
  | nil
  | bool (b : Bool)
  | num (k : NumCode) (bs : List UInt8)
  | str (f : Form) (bs : List UInt8)
  | bin (f : Form) (bs : List UInt8)
  | ext (f : Form) (type : UInt8) (bs : List UInt8)
  deriving DecidableEq, Repr

inductive Obj
  | leaf (l : Leaf)
  | array (f : Form) (items : List Obj)
  | map (f : Form) (items : List Obj)

/-- The type code of an ext whose length is in the code. -/
def fixext : Nat → UInt8
  | 1 => 0xd4
  | 2 => 0xd5
  | 4 => 0xd6
  | 8 => 0xd7
  | _ => 0xd8

def strHeader (n : Nat) : Form → List UInt8
  | .fix => [0xa0 ||| UInt8.ofNat n]
  | .w8 => 0xd9 :: Order.big.bytes 1 n
  | .w16 => 0xda :: Order.big.bytes 2 n
  | .w32 => 0xdb :: Order.big.bytes 4 n

/-- A bin has no form with the length in the code; that form is used nowhere. -/
def binHeader (n : Nat) : Form → List UInt8
  | .fix | .w8 => 0xc4 :: Order.big.bytes 1 n
  | .w16 => 0xc5 :: Order.big.bytes 2 n
  | .w32 => 0xc6 :: Order.big.bytes 4 n

def extHeader (n : Nat) : Form → List UInt8
  | .fix => [fixext n]
  | .w8 => 0xc7 :: Order.big.bytes 1 n
  | .w16 => 0xc8 :: Order.big.bytes 2 n
  | .w32 => 0xc9 :: Order.big.bytes 4 n

/-- An array or a map has no form with an 8-bit length; that form is used nowhere. -/
def arrayHeader (n : Nat) : Form → List UInt8
  | .fix => [0x90 ||| UInt8.ofNat n]
  | .w8 | .w16 => 0xdc :: Order.big.bytes 2 n
  | .w32 => 0xdd :: Order.big.bytes 4 n

def mapHeader (n : Nat) : Form → List UInt8
  | .fix => [0x80 ||| UInt8.ofNat n]
  | .w8 | .w16 => 0xde :: Order.big.bytes 2 n
  | .w32 => 0xdf :: Order.big.bytes 4 n

def Leaf.encode : Leaf → List UInt8
  | .fixint b => [b]
  | .nil => [0xc0]
  | .bool b => [if b then 0xc3 else 0xc2]
  | .num k bs => k.byte :: bs
  | .str f bs => strHeader bs.length f ++ bs
  | .bin f bs => binHeader bs.length f ++ bs
  | .ext f type bs => extHeader bs.length f ++ type :: bs

/-- The length fits its form. -/
def Form.Fits (fix : Nat → Prop) (n : Nat) : Form → Prop
  | .fix => fix n
  | .w8 => n < 256
  | .w16 => n < 256 ^ 2
  | .w32 => n < 256 ^ 4

def Leaf.WF : Leaf → Prop
  | .fixint b => b ≤ 0x7f ∨ 0xe0 ≤ b
  | .nil | .bool _ => True
  | .num k bs => bs.length = k.width
  | .str f bs => f.Fits (· < 32) bs.length
  | .bin f bs => f ≠ .fix ∧ f.Fits (fun _ => False) bs.length
  | .ext f _ bs => f.Fits (· ∈ [1, 2, 4, 8, 16]) bs.length

namespace Obj

mutual

def encode : Obj → List UInt8
  | .leaf l => l.encode
  | .array f items => arrayHeader items.length f ++ encodeAll items
  | .map f items => mapHeader (items.length / 2) f ++ encodeAll items

def encodeAll : List Obj → List UInt8
  | [] => []
  | o :: os => encode o ++ encodeAll os

end

mutual

def WF : Obj → Prop
  | .leaf l => l.WF
  | .array f items => f ≠ .w8 ∧ f.Fits (· < 16) items.length ∧ WFAll items
  | .map f items => f ≠ .w8 ∧ items.length % 2 = 0 ∧ f.Fits (· < 16) (items.length / 2) ∧ WFAll items

def WFAll : List Obj → Prop
  | [] => True
  | o :: os => WF o ∧ WFAll os

end

mutual

/-- How many objects there are in an object, itself included. -/
def nodes : Obj → Nat
  | .leaf _ => 1
  | .array _ items => nodesAll items + 1
  | .map _ items => nodesAll items + 1

def nodesAll : List Obj → Nat
  | [] => 0
  | o :: os => nodes o + nodesAll os

end

mutual

/-- No map of the object declares `limit` pairs or more in a 32-bit header. -/
def MapsBelow (limit : Nat) : Obj → Prop
  | .leaf _ => True
  | .array _ items => MapsBelowAll limit items
  | .map f items => (f = .w32 → items.length / 2 < limit) ∧ MapsBelowAll limit items

def MapsBelowAll (limit : Nat) : List Obj → Prop
  | [] => True
  | o :: os => MapsBelow limit o ∧ MapsBelowAll limit os

end

theorem encodeAll_append (os ps : List Obj) : encodeAll (os ++ ps) = encodeAll os ++ encodeAll ps := by
  induction os with
  | nil => rfl
  | cons o os ih => simp [encodeAll, ih]

theorem wfAll_iff (os : List Obj) : WFAll os ↔ ∀ o ∈ os, o.WF := by
  induction os with
  | nil => simp [WFAll]
  | cons o os ih => simp [WFAll, ih]

theorem mapsBelowAll_iff (limit : Nat) (os : List Obj) :
    MapsBelowAll limit os ↔ ∀ o ∈ os, o.MapsBelow limit := by
  induction os with
  | nil => simp [MapsBelowAll]
  | cons o os ih => simp [MapsBelowAll, ih]

theorem nodes_pos (o : Obj) : 0 < o.nodes := by
  cases o <;> simp [nodes]

theorem nodes_le_nodesAll {o : Obj} {os : List Obj} (h : o ∈ os) : o.nodes ≤ nodesAll os := by
  induction os with
  | nil => cases h
  | cons p os ih =>
    rcases List.mem_cons.mp h with rfl | h
    · simp [nodesAll]
    · have := ih h
      simp only [nodesAll]
      omega

theorem encode_ne_nil (o : Obj) : o.encode ≠ [] := by
  cases o with
  | leaf l => cases l with
    | str f bs => cases f <;> simp [encode, Leaf.encode, strHeader]
    | bin f bs => cases f <;> simp [encode, Leaf.encode, binHeader]
    | ext f t bs => cases f <;> simp [encode, Leaf.encode, extHeader]
    | _ => simp [encode, Leaf.encode]
  | array f items => cases f <;> simp [encode, arrayHeader]
  | map f items => cases f <;> simp [encode, mapHeader]

theorem encodeAll_eq_nil {os : List Obj} : encodeAll os = [] ↔ os = [] := by
  cases os with
  | nil => simp [encodeAll]
  | cons o os => simp [encodeAll, encode_ne_nil]

theorem arrayHeader_pos (n : Nat) (f : Form) : 0 < (arrayHeader n f).length := by
  cases f <;> simp [arrayHeader]

theorem mapHeader_pos (n : Nat) (f : Form) : 0 < (mapHeader n f).length := by
  cases f <;> simp [mapHeader]

mutual

/-- Every object in an object has a byte of its own. -/
theorem nodes_le_length : ∀ o : Obj, o.nodes ≤ o.encode.length
  | .leaf l => by
    have := encode_ne_nil (.leaf l)
    exact List.length_pos_iff.mpr this
  | .array f items => by
    have := nodesAll_le_length items
    have := arrayHeader_pos items.length f
    simp only [nodes, encode, List.length_append]
    omega
  | .map f items => by
    have := nodesAll_le_length items
    have := mapHeader_pos (items.length / 2) f
    simp only [nodes, encode, List.length_append]
    omega

theorem nodesAll_le_length : ∀ os : List Obj, nodesAll os ≤ (encodeAll os).length
  | [] => le_rfl
  | o :: os => by
    have := nodes_le_length o
    have := nodesAll_le_length os
    simp only [nodesAll, encodeAll, List.length_append]
    omega

end

end Obj

end Msgpack
