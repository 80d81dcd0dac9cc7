import Mathlib.Tactic.Common
import Mathlib.Data.List.Basic
import Mathlib.Algebra.Order.Group.Nat

/-!
# Fixed-width integers as byte strings

A number of `w` bytes is written least significant byte first (`leBytes`) or most significant
byte first; `Order` selects which, and `Order.value` reads the bytes back.  Signed numbers go
through their two's complement representative.
-/

namespace Endian

/-- The `w` low-order bytes of `n`, least significant first. -/
def leBytes : Nat → Nat → List UInt8
  | 0, _ => []
  | w + 1, n => UInt8.ofNat n :: leBytes w (n / 256)

/-- The number that a list of bytes, least significant first, denotes. -/
def leValue : List UInt8 → Nat
  | [] => 0
  | b :: bs => b.toNat + 256 * leValue bs

@[simp] theorem length_leBytes (w n : Nat) : (leBytes w n).length = w := by
  induction w generalizing n with
  | zero => rfl
  | succ w ih => simp [leBytes, ih]

theorem leValue_leBytes (w n : Nat) : leValue (leBytes w n) = n % 256 ^ w := by
  induction w generalizing n with
  | zero => simp [leBytes, leValue, Nat.mod_one]
  | succ w ih =>
    have hmod : n % 256 ^ (w + 1) = n % 256 + 256 * (n / 256 % 256 ^ w) := by
      rw [pow_succ', Nat.mod_mul]
    simp [leBytes, leValue, ih, hmod]

theorem leBytes_leValue (bs : List UInt8) : leBytes bs.length (leValue bs) = bs := by
  induction bs with
  | nil => rfl
  | cons b bs ih =>
    have hb : b.toNat < 256 := b.toNat_lt
    have hhead : UInt8.ofNat (b.toNat + 256 * leValue bs) = b := by
      apply UInt8.toNat_inj.mp
      rw [UInt8.toNat_ofNat']
      omega
    have htail : (b.toNat + 256 * leValue bs) / 256 = leValue bs := by omega
    simp only [leValue, List.length_cons, leBytes, hhead, htail, ih]

/-- The byte order of a stream. -/
inductive Order
  | big
  | little
  deriving DecidableEq, Repr

/-- The `w` bytes that represent `n` in the given order. -/
def Order.bytes : Order → Nat → Nat → List UInt8
  | .little, w, n => leBytes w n
  | .big, w, n => (leBytes w n).reverse

/-- The number that the bytes represent in the given order. -/
def Order.value : Order → List UInt8 → Nat
  | .little, bs => leValue bs
  | .big, bs => leValue bs.reverse

@[simp] theorem Order.length_bytes (o : Order) (w n : Nat) : (o.bytes w n).length = w := by
  cases o <;> simp [Order.bytes]

theorem Order.value_bytes (o : Order) (w n : Nat) : o.value (o.bytes w n) = n % 256 ^ w := by
  cases o <;> simp [Order.bytes, Order.value, leValue_leBytes]

theorem Order.value_bytes_of_lt (o : Order) {w n : Nat} (h : n < 256 ^ w) :
    o.value (o.bytes w n) = n := by
  rw [Order.value_bytes, Nat.mod_eq_of_lt h]

theorem Order.bytes_value (o : Order) (bs : List UInt8) : o.bytes bs.length (o.value bs) = bs := by
  cases o
  · have h := leBytes_leValue bs.reverse
    rw [List.length_reverse] at h
    rw [Order.bytes, Order.value, h, List.reverse_reverse]
  · exact leBytes_leValue bs

theorem Order.value_lt (o : Order) (bs : List UInt8) : o.value bs < 256 ^ bs.length := by
  rw [← o.bytes_value bs, Order.value_bytes, Order.length_bytes]
  exact Nat.mod_lt _ (Nat.pow_pos (by decide))

theorem leValue_eq_zero {bs : List UInt8} (h : leValue bs = 0) : ∀ b ∈ bs, b = 0 := by
  induction bs with
  | nil => simp
  | cons b bs ih =>
    simp only [leValue] at h
    have hb : b = 0 := UInt8.toNat_inj.mp (by simp; omega)
    exact List.forall_mem_cons.mpr ⟨hb, ih (by omega)⟩

theorem Order.value_eq_zero (o : Order) {bs : List UInt8} (h : o.value bs = 0) :
    ∀ b ∈ bs, b = 0 := by
  cases o with
  | big => exact fun b hb => leValue_eq_zero h b (List.mem_reverse.mpr hb)
  | little => exact leValue_eq_zero h

theorem Order.value_injective (o : Order) {bs cs : List UInt8} (hlen : bs.length = cs.length)
    (h : o.value bs = o.value cs) : bs = cs := by
  rw [← o.bytes_value bs, ← o.bytes_value cs, hlen, h]

/-- The representative of `i` modulo `256 ^ w`: the bit pattern a cast to unsigned gives. -/
def toUnsigned (w : Nat) (i : Int) : Nat := (i % (256 ^ w : Nat)).toNat

/-- The signed reading of a `w`-byte pattern. -/
def toSigned (w : Nat) (n : Nat) : Int :=
  if 2 * n < 256 ^ w then (n : Int) else (n : Int) - (256 ^ w : Nat)

theorem toUnsigned_lt (w : Nat) (i : Int) : toUnsigned w i < 256 ^ w := by
  have hpos : 0 < 256 ^ w := Nat.pow_pos (by decide)
  have h1 : 0 ≤ i % ((256 ^ w : Nat) : Int) := Int.emod_nonneg _ (by omega)
  have h2 : i % ((256 ^ w : Nat) : Int) < ((256 ^ w : Nat) : Int) :=
    Int.emod_lt_of_pos _ (by exact_mod_cast hpos)
  unfold toUnsigned
  omega

theorem toSigned_toUnsigned (w : Nat) (i : Int)
    (hlo : -((256 ^ w : Nat) : Int) ≤ 2 * i) (hhi : 2 * i < ((256 ^ w : Nat) : Int)) :
    toSigned w (toUnsigned w i) = i := by
  unfold toSigned toUnsigned
  generalize (256 ^ w : Nat) = m at *
  rcases lt_or_ge i 0 with hi | hi
  · have hmod : i % (m : Int) = i + m := by
      rw [← Int.add_emod_right, Int.emod_eq_of_lt (by omega) (by omega)]
    rw [hmod, if_neg (by omega)]
    omega
  · rw [Int.emod_eq_of_lt hi (by omega), if_pos (by omega)]
    omega

end Endian
