import Mathlib.Data.List.TakeWhile
import Nodeoze.Lib.JsonText

/-!
# The numbers and strings of JSON

A number without a fraction and an exponent is an integer; what others stand for is a parameter, and so is
which integers there are.  The escapes of a string are those of RFC 8259: a character that is escaped as a
surrogate needs the other one of its pair next to it, and is encoded in UTF-8.
-/

namespace JsonText

variable {ν : Type}

/-! ## Numbers -/

abbrev minus : UInt8 := 0x2d

def isDecimal (b : UInt8) : Bool := 0x30 ≤ b && b ≤ 0x39

def decimalValue (ds : List UInt8) : Nat := ds.foldl (fun n d => n * 10 + (d.toNat - 48)) 0

/-- Digits without a zero in front. -/
def isNatural (ds : List UInt8) : Bool :=
  !ds.isEmpty && ds.all isDecimal && (ds.head? != some 0x30 || ds.length == 1)

def integerValue : List UInt8 → Option Int
  | 0x2d :: ds => if isNatural ds then some (-(decimalValue ds : Int)) else none
  | ds => if isNatural ds then some (decimalValue ds : Int) else none

/-- The text after a fraction, which there may be. -/
def afterFraction : List UInt8 → Option (List UInt8)
  | 0x2e :: t => if (t.takeWhile isDecimal).isEmpty then none else some (t.dropWhile isDecimal)
  | t => some t

def unsigned : List UInt8 → List UInt8
  | 0x2b :: t => t
  | 0x2d :: t => t
  | t => t

def isExponent : List UInt8 → Bool
  | e :: t => (e == 0x65 || e == 0x45) && !(unsigned t).isEmpty && (unsigned t).all isDecimal
  | [] => false

/-- A fraction or an exponent or both. -/
def isReal (t : List UInt8) : Bool :=
  match afterFraction t with
  | some [] => !t.isEmpty
  | some u => isExponent u
  | none => false

/-- Where the part in front of a fraction or an exponent ends. -/
def isLeading (b : UInt8) : Bool := isDecimal b || b == minus

/-- What the text of a number stands for. -/
def numberValue (integer : Int → Option ν) (real : List UInt8 → Option ν) (t : List UInt8) : Option ν :=
  match integerValue (t.takeWhile isLeading) with
  | none => none
  | some i =>
    if (t.dropWhile isLeading).isEmpty then integer i
    else if isReal (t.dropWhile isLeading) then real t
    else none

theorem isNumeric_of_isDecimal {b : UInt8} (hb : isDecimal b = true) : isNumeric b = true := by
  simp only [isDecimal, Bool.and_eq_true, decide_eq_true_eq] at hb
  simp [isNumeric, hb.1, hb.2]

theorem isNumeric_of_isLeading {b : UInt8} (hb : isLeading b = true) : isNumeric b = true := by
  rcases Bool.or_eq_true_iff.mp hb with hb | hb
  · exact isNumeric_of_isDecimal hb
  · rw [beq_iff_eq.mp hb]
    rfl

theorem numeric_unsigned {t : List UInt8} (h : ∀ b ∈ unsigned t, isNumeric b = true) :
    ∀ b ∈ t, isNumeric b = true := by
  unfold unsigned at h
  split at h
  · intro b hb
    rcases List.mem_cons.mp hb with rfl | hb
    · rfl
    · exact h b hb
  · intro b hb
    rcases List.mem_cons.mp hb with rfl | hb
    · rfl
    · exact h b hb
  · exact h

theorem numeric_exponent {t : List UInt8} (h : isExponent t = true) : ∀ b ∈ t, isNumeric b = true := by
  cases t with
  | nil => exact fun b hb => nomatch hb
  | cons e t =>
    simp only [isExponent, Bool.and_eq_true, List.all_eq_true, Bool.or_eq_true, beq_iff_eq] at h
    obtain ⟨⟨he, -⟩, hdigits⟩ := h
    intro b hb
    rcases List.mem_cons.mp hb with rfl | hb
    · rcases he with rfl | rfl <;> rfl
    · exact numeric_unsigned (fun c hc => isNumeric_of_isDecimal (hdigits c hc)) b hb

theorem numeric_fraction {t u : List UInt8} (h : afterFraction t = some u)
    (hu : ∀ b ∈ u, isNumeric b = true) : ∀ b ∈ t, isNumeric b = true := by
  unfold afterFraction at h
  split at h
  · rename_i t
    split_ifs at h
    obtain rfl := Option.some.inj h
    intro b hb
    rcases List.mem_cons.mp hb with rfl | hb
    · rfl
    rw [← List.takeWhile_append_dropWhile (p := isDecimal) (l := t)] at hb
    rcases List.mem_append.mp hb with hb | hb
    · exact isNumeric_of_isDecimal (List.mem_takeWhile_imp hb)
    · exact hu b hb
  · obtain rfl := Option.some.inj h
    exact hu

theorem numeric_real {t : List UInt8} (h : isReal t = true) : ∀ b ∈ t, isNumeric b = true := by
  unfold isReal at h
  split at h
  · rename_i hfraction
    exact numeric_fraction hfraction fun b hb => nomatch hb
  · rename_i hfraction
    exact numeric_fraction hfraction (numeric_exponent h)
  · contradiction

theorem numberValue_numeric {integer : Int → Option ν} {real : List UInt8 → Option ν} {t : List UInt8} {n : ν}
    (h : numberValue integer real t = some n) : ∀ b ∈ t, isNumeric b = true := by
  have hsplit := List.takeWhile_append_dropWhile (p := isLeading) (l := t)
  have hrest : ∀ b ∈ t.dropWhile isLeading, isNumeric b = true := by
    unfold numberValue at h
    split at h
    · contradiction
    · split_ifs at h with hempty hreal
      · rw [List.isEmpty_iff.mp hempty]
        exact fun b hb => nomatch hb
      · exact numeric_real hreal
  intro b hb
  rw [← hsplit] at hb
  rcases List.mem_append.mp hb with hb | hb
  · exact isNumeric_of_isLeading (List.mem_takeWhile_imp hb)
  · exact hrest b hb

/-! ## Strings -/

/-- A byte, or a code unit of UTF-16 that was escaped. -/
inductive Piece
  | byte (b : UInt8)
  | unit (n : Nat)
  deriving DecidableEq, Repr

/-- The character after a backslash. -/
def escaped : UInt8 → Option UInt8
  | 0x22 => some 0x22
  | 0x5c => some 0x5c
  | 0x2f => some 0x2f
  | 0x62 => some 0x08
  | 0x66 => some 0x0c
  | 0x6e => some 0x0a
  | 0x72 => some 0x0d
  | 0x74 => some 0x09
  | _ => none

def hexValue (b : UInt8) : Option Nat :=
  if 0x30 ≤ b ∧ b ≤ 0x39 then some (b.toNat - 0x30)
  else if 0x41 ≤ b ∧ b ≤ 0x46 then some (b.toNat - 0x37)
  else if 0x61 ≤ b ∧ b ≤ 0x66 then some (b.toNat - 0x57)
  else none

def codeUnit (a b c d : UInt8) : Option Nat := do
  let a ← hexValue a
  let b ← hexValue b
  let c ← hexValue c
  let d ← hexValue d
  return ((a * 16 + b) * 16 + c) * 16 + d

def pieces : List UInt8 → Option (List Piece)
  | [] => some []
  | b :: t =>
    if b = backslash then
      match t with
      | 0x75 :: a :: b :: c :: d :: t => (codeUnit a b c d).bind fun n => (pieces t).map (.unit n :: ·)
      | e :: t => (escaped e).bind fun c => (pieces t).map (.byte c :: ·)
      | [] => none
    else if b < 0x20 ∨ b = quote then none
    else (pieces t).map (.byte b :: ·)

def utf8 (c : Nat) : List UInt8 :=
  if c < 0x80 then [UInt8.ofNat c]
  else if c < 0x800 then [UInt8.ofNat (0xc0 + c / 0x40), UInt8.ofNat (0x80 + c % 0x40)]
  else if c < 0x10000 then
    [UInt8.ofNat (0xe0 + c / 0x1000), UInt8.ofNat (0x80 + c / 0x40 % 0x40), UInt8.ofNat (0x80 + c % 0x40)]
  else
    [UInt8.ofNat (0xf0 + c / 0x40000), UInt8.ofNat (0x80 + c / 0x1000 % 0x40),
      UInt8.ofNat (0x80 + c / 0x40 % 0x40), UInt8.ofNat (0x80 + c % 0x40)]

def isHigh (n : Nat) : Bool := decide (0xd800 ≤ n) && decide (n < 0xdc00)

def isLow (n : Nat) : Bool := decide (0xdc00 ≤ n) && decide (n < 0xe000)

def joined : List Piece → Option (List UInt8)
  | [] => some []
  | .byte b :: t => (joined t).map (b :: ·)
  | .unit n :: t =>
    if isHigh n then
      match t with
      | .unit m :: t =>
        if isLow m then (joined t).map (utf8 (0x10000 + (n - 0xd800) * 0x400 + (m - 0xdc00)) ++ ·) else none
      | _ => none
    else if isLow n then none
    else (joined t).map (utf8 n ++ ·)

/-- What the text of a string stands for. -/
def stringValue (t : List UInt8) : Option (List UInt8) := (pieces t).bind joined

/-- The numbers and strings of RFC 8259. -/
def rfcLexemes (integer : Int → Option ν) (real : List UInt8 → Option ν) : Lexemes ν where
  number := numberValue integer real
  string := stringValue
  number_ne_nil := rfl
  number_numeric _ _ h := numberValue_numeric h

example : stringValue [0x5c, 0x75, 0x64, 0x38, 0x33, 0x64, 0x5c, 0x75, 0x64, 0x65, 0x30, 0x30]
    = some [0xf0, 0x9f, 0x98, 0x80] := by decide

end JsonText
