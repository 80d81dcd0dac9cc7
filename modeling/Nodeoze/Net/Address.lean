import Nodeoze.Lib.Endian
import Nodeoze.Rpc.Manager

/-!
# IP addresses

`ip::address` is a type and the bytes in the order of the network.  As an `any` it is the array of its
bytes.  The constructor guesses from an array which type is meant: one integer is an IPv4 address, four are
the words of an IPv6 address or the bytes of an IPv4 address, sixteen are the bytes of an IPv6 address, and
0, 0, 0, 1 is the loopback address of IPv6.
-/

namespace Nodeoze.Net

open Endian (Order)
open Rpc (toUint32)

/-- `ip::address`, with the bytes that its type uses. -/
inductive Address
  | unknown
  | v4 (bytes : { bs : List UInt8 // bs.length = 4 })
  | v6 (bytes : { bs : List UInt8 // bs.length = 16 })
  deriving DecidableEq

namespace Address

/-- `v6_loopback` -/
def v6Loopback : Address := .v6 ⟨[0, 0, 0, 0, 0, 0, 0, 0, 0, 0, 0, 0, 0, 0, 0, 1], rfl⟩

/-- `any::to_uint8` -/
def toUint8 : Any → UInt8
  | .integer i => i.toUInt64.toUInt8
  | _ => 0

/-- Four words, as they are in the memory of the host. -/
def ofWords (host : Order) (w₀ w₁ w₂ w₃ : UInt32) : Address :=
  .v6 ⟨host.bytes 4 w₀.toNat ++ host.bytes 4 w₁.toNat ++ host.bytes 4 w₂.toNat ++ host.bytes 4 w₃.toNat, by
    simp⟩

def isGreaterThan255 (val : UInt32) : Bool := decide (255 < val)

/-- `address( const any & )` -/
def ofAny (host : Order) : Any → Address
  | .array [x] => .v4 ⟨host.bytes 4 (toUint32 x).toNat, host.length_bytes 4 _⟩
  | .array [x₀, x₁, x₂, x₃] =>
    if isGreaterThan255 (toUint32 x₀) || isGreaterThan255 (toUint32 x₁) || isGreaterThan255 (toUint32 x₂)
        || isGreaterThan255 (toUint32 x₃) then
      ofWords host (toUint32 x₀) (toUint32 x₁) (toUint32 x₂) (toUint32 x₃)
    else if toUint8 x₀ = 0 ∧ toUint8 x₁ = 0 ∧ toUint8 x₂ = 0 ∧ toUint8 x₃ = 1 then v6Loopback
    else .v4 ⟨[toUint8 x₀, toUint8 x₁, toUint8 x₂, toUint8 x₃], rfl⟩
  | .array xs => if h : xs.length = 16 then .v6 ⟨xs.map toUint8, by rw [List.length_map, h]⟩ else .unknown
  | _ => .unknown

/-- `any( std::uint8_t )` -/
def ofUint8 (b : UInt8) : Any := .integer b.toUInt64.toInt64

/-- `to_any` -/
def toAny : Address → Any
  | .unknown => .null
  | .v4 bytes => .array (bytes.1.map ofUint8)
  | .v6 bytes => .array (bytes.1.map ofUint8)

@[simp] theorem toUint8_ofUint8 (b : UInt8) : toUint8 (ofUint8 b) = b := by
  simp [toUint8, ofUint8]

theorem toUint32_ofUint8 (b : UInt8) : toUint32 (ofUint8 b) = b.toUInt32 := by
  simp [toUint32, ofUint8]

/-- What one byte is read as is not a word. -/
theorem isGreaterThan255_ofUint8 (b : UInt8) : isGreaterThan255 (toUint32 (ofUint8 b)) = false := by
  have hlt := b.toNat_lt
  rw [toUint32_ofUint8, isGreaterThan255, decide_eq_false_iff_not, UInt32.lt_iff_toNat_lt, UInt8.toNat_toUInt32]
  change ¬255 < b.toNat
  omega

/-- The bytes of an array of sixteen. -/
theorem ofAny_sixteen (host : Order) {xs : List Any} (h : xs.length = 16) :
    ofAny host (.array xs) = .v6 ⟨xs.map toUint8, by rw [List.length_map, h]⟩ := by
  unfold ofAny
  split
  · rename_i heq
    simp [Any.array.inj heq] at h
  · rename_i heq
    simp [Any.array.inj heq] at h
  · rename_i heq
    obtain rfl := Any.array.inj heq
    exact dif_pos h
  · rename_i heq
    exact absurd rfl (heq _)

/-- An address is read back from its bytes, but for the IPv4 address 0.0.0.1. -/
theorem ofAny_toAny (host : Order) (a : Address) :
    ofAny host a.toAny = if a = .v4 ⟨[0, 0, 0, 1], rfl⟩ then v6Loopback else a := by
  match a with
  | .unknown => rfl
  | .v4 ⟨[b₀, b₁, b₂, b₃], h⟩ =>
    simp only [toAny, List.map_cons, List.map_nil, ofAny, isGreaterThan255_ofUint8, toUint8_ofUint8,
      Bool.or_false, Bool.false_eq_true, if_false]
    by_cases hloopback : b₀ = 0 ∧ b₁ = 0 ∧ b₂ = 0 ∧ b₃ = 1
    · obtain ⟨rfl, rfl, rfl, rfl⟩ := hloopback
      rfl
    · rw [if_neg hloopback, if_neg]
      intro heq
      simp only [v4.injEq, Subtype.mk.injEq, List.cons.injEq, and_true] at heq
      exact hloopback heq
  | .v6 ⟨bs, h⟩ =>
    have hmap : (bs.map ofUint8).map toUint8 = bs := by
      rw [List.map_map]
      exact List.map_id'' toUint8_ofUint8 bs
    rw [if_neg nofun, toAny, ofAny_sixteen host (by rw [List.length_map, h])]
    simp only [hmap]

/-- The array of the IPv4 address 0.0.0.1 is taken for an IPv6 address. -/
theorem zeroNetwork_misread :
    ofAny .little (toAny (.v4 ⟨[0, 0, 0, 1], rfl⟩)) = v6Loopback ∧
      ofAny .little (toAny (.v4 ⟨[0, 0, 0, 1], rfl⟩)) ≠ .v4 ⟨[0, 0, 0, 1], rfl⟩ := by
  decide

end Address

end Nodeoze.Net
