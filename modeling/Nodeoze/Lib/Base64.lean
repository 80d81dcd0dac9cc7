import Mathlib.Data.List.Basic
import Mathlib.Tactic.Common

/-!
# Base64

Three bytes are written as four digits of six bits.  What is left at the end is filled up with zero
bits and, to four characters, with `=`.
-/

namespace Base64

/-- `A` to `Z`, `a` to `z`, `0` to `9`, `+` and `/`. -/
def digit (n : Nat) : UInt8 :=
  if n < 26 then UInt8.ofNat (65 + n)
  else if n < 52 then UInt8.ofNat (71 + n)
  else if n < 62 then UInt8.ofNat (n - 4)
  else if n = 62 then 43
  else 47

def value (c : UInt8) : Nat :=
  if 97 ≤ c then c.toNat - 71
  else if 65 ≤ c then c.toNat - 65
  else if 48 ≤ c then c.toNat + 4
  else if c = 43 then 62
  else 63

def pad : UInt8 := 61

theorem value_digit {n : Nat} (h : n < 64) : value (digit n) = n := by
  have hall : ∀ n < 64, value (digit n) = n := by decide
  exact hall n h

theorem digit_ne_pad {n : Nat} (h : n < 64) : digit n ≠ pad := by
  have hall : ∀ n < 64, digit n ≠ pad := by decide
  exact hall n h

def encode : List UInt8 → List UInt8
  | a :: b :: c :: rest =>
    digit (a.toNat / 4) :: digit (a.toNat % 4 * 16 + b.toNat / 16) ::
      digit (b.toNat % 16 * 4 + c.toNat / 64) :: digit (c.toNat % 64) :: encode rest
  | [a, b] =>
    [digit (a.toNat / 4), digit (a.toNat % 4 * 16 + b.toNat / 16), digit (b.toNat % 16 * 4), pad]
  | [a] => [digit (a.toNat / 4), digit (a.toNat % 4 * 16), pad, pad]
  | [] => []

def decode : List UInt8 → List UInt8
  | w :: x :: y :: z :: rest =>
    let a := UInt8.ofNat (value w * 4 + value x / 16)
    let b := UInt8.ofNat (value x % 16 * 16 + value y / 4)
    let c := UInt8.ofNat (value y % 4 * 64 + value z)
    if y = pad then [a]
    else if z = pad then [a, b]
    else a :: b :: c :: decode rest
  | _ => []

theorem ofNat_toNat {b : UInt8} {n : Nat} (h : n = b.toNat) : UInt8.ofNat n = b := by
  rw [h, UInt8.ofNat_toNat]

theorem decode_encode (bs : List UInt8) : decode (encode bs) = bs := by
  induction bs using encode.induct with
  | case1 a b c rest ih =>
    have ha := a.toNat_lt
    have hb := b.toNat_lt
    have hc := c.toNat_lt
    have h1 := @value_digit (a.toNat / 4) (by omega)
    have h2 := @value_digit (a.toNat % 4 * 16 + b.toNat / 16) (by omega)
    have h3 := @value_digit (b.toNat % 16 * 4 + c.toNat / 64) (by omega)
    have h4 := @value_digit (c.toNat % 64) (by omega)
    have hy := @digit_ne_pad (b.toNat % 16 * 4 + c.toNat / 64) (by omega)
    have hz := @digit_ne_pad (c.toNat % 64) (by omega)
    simp only [encode, decode, hy, hz, if_false, h1, h2, h3, h4, ih]
    rw [ofNat_toNat (b := a) (by omega), ofNat_toNat (b := b) (by omega), ofNat_toNat (b := c) (by omega)]
  | case2 a b =>
    have ha := a.toNat_lt
    have hb := b.toNat_lt
    have h1 := @value_digit (a.toNat / 4) (by omega)
    have h2 := @value_digit (a.toNat % 4 * 16 + b.toNat / 16) (by omega)
    have h3 := @value_digit (b.toNat % 16 * 4) (by omega)
    have hy := @digit_ne_pad (b.toNat % 16 * 4) (by omega)
    simp only [encode, decode, hy, if_false, if_true, h1, h2, h3]
    rw [ofNat_toNat (b := a) (by omega), ofNat_toNat (b := b) (by omega)]
  | case3 a =>
    have ha := a.toNat_lt
    have h1 := @value_digit (a.toNat / 4) (by omega)
    have h2 := @value_digit (a.toNat % 4 * 16) (by omega)
    simp only [encode, decode, if_true, h1, h2]
    rw [ofNat_toNat (b := a) (by omega)]
  | case4 => rfl

theorem length_encode (bs : List UInt8) : (encode bs).length = 4 * ((bs.length + 2) / 3) := by
  induction bs using encode.induct with
  | case1 a b c rest ih =>
    simp only [encode, List.length_cons, ih]
    omega
  | case2 a b => simp [encode]
  | case3 a => simp [encode]
  | case4 => simp [encode]

end Base64
