import Nodeoze.Lib.LongestRun
import Nodeoze.Lib.Numeral
import Nodeoze.Net.Address

/-!
# IP addresses as text

An IPv4 address is four numbers with dots between.  An IPv6 address is eight hexadecimal words with colons
between, and `::` for the longest run of zeros.  The last two words of an address that holds an IPv4 address
are printed as four characters with these codes, and dots, which the parser does not accept.
-/

namespace Nodeoze.Net.Address

open LongestRun (Run longest IsRun)
open Numeral (numeral)
open Any (text)

abbrev Text := List UInt8

def colon : UInt8 := 58

def dot : UInt8 := 46

/-! ## Printing -/

/-- A number on a stream, in decimal digits. -/
def decimalText (n : Nat) : Text := (numeral 10 n).map fun d => UInt8.ofNat (48 + d)

def xdigits : Text := text "0123456789abcdef"

/-- A number on a stream after `std::hex`. -/
def hexText (n : Nat) : Text := (numeral 16 n).map fun d => xdigits.getD d 0

/-- `to_v4` -/
def toV4 (bs : List UInt8) : Text :=
  decimalText (bs.getD 0 0).toNat ++ dot :: (decimalText (bs.getD 1 0).toNat ++ dot ::
    (decimalText (bs.getD 2 0).toNat ++ dot :: decimalText (bs.getD 3 0).toNat))

/-- The bytes two by two. -/
def words : List UInt8 → List Nat
  | b :: b' :: bs => (b.toNat <<< 8 ||| b'.toNat) :: words bs
  | _ => []

/-- The run of zeros that `::` stands for; one zero is no run. -/
def best (ws : List Nat) : Option Run := (longest (fun w => w == 0) ws).filter fun r => decide (2 ≤ r.len)

def inside (best : Option Run) (i : Nat) : Bool :=
  match best with
  | none => false
  | some r => decide (r.base ≤ i) && decide (i < r.base + r.len)

/-- Is this address an encapsulated IPv4? -/
def encapsulated (best : Option Run) (ws : List Nat) : Bool :=
  match best with
  | none => false
  | some r => r.base == 0 && (r.len == 6 || (r.len == 5 && ws.getD 5 0 == 0xffff))

/-- The encapsulated address: the bytes are characters. -/
def encapsulatedText (bs : List UInt8) : Text :=
  [bs.getD 15 0, dot, bs.getD 14 0, bs.getD 13 0, dot, bs.getD 12 0]

/-- The loop that prints the words from the `i`-th one on.  Given an encapsulated address, it is printed
in the place of the last two. -/
def printWords (best : Option Run) (enclosed : Option Text) : Nat → List Nat → Text
  | _, [] => []
  | i, w :: ws =>
    if inside best i then
      (if best.map Run.base = some i then [colon] else []) ++ printWords best enclosed (i + 1) ws
    else
      (if i ≠ 0 then [colon] else []) ++
        match if i = 6 then enclosed else none with
        | some t => t
        | none => hexText w ++ printWords best enclosed (i + 1) ws

/-- Was it a trailing run of zeros? -/
def trailing (best : Option Run) : Bool :=
  match best with
  | none => false
  | some r => r.base + r.len == 8

/-- `to_v6` -/
def toV6 (bs : List UInt8) : Text :=
  let ws := words bs
  let enclosed := if encapsulated (best ws) ws then some (encapsulatedText bs) else none
  printWords (best ws) enclosed 0 ws ++ if trailing (best ws) then [colon] else []

/-- `to_string` -/
def toString : Address → Text
  | .unknown => []
  | .v4 bytes => toV4 bytes.1
  | .v6 bytes => toV6 bytes.1

/-! ## Parsing -/

/-- What a pointer to characters points to. -/
def cString (s : Text) : Text := s.takeWhile fun c => c != 0

/-- The octets that are complete, the one at hand, how many there are with it, and whether it has a digit. -/
structure Octets where
  done : List UInt8
  cur : Nat
  octets : Nat
  sawDigit : Bool

/-- The loop of `from_v4`. -/
def scanV4 (s : Octets) : Text → Option Octets
  | [] => some s
  | ch :: rest =>
    if 48 ≤ ch.toNat ∧ ch.toNat ≤ 57 then
      let newInt := s.cur * 10 + (ch.toNat - 48)
      if s.sawDigit ∧ s.cur = 0 then none
      else if 255 < newInt then none
      else if s.sawDigit then scanV4 { s with cur := newInt } rest
      else if 4 < s.octets + 1 then none
      else scanV4 { s with cur := newInt, octets := s.octets + 1, sawDigit := true } rest
    else if ch = dot ∧ s.sawDigit then
      if s.octets = 4 then none
      else scanV4 { s with done := s.done ++ [UInt8.ofNat s.cur], cur := 0, sawDigit := false } rest
    else none

/-- `from_v4` -/
def fromV4 (s : Text) : Address :=
  match scanV4 ⟨[], 0, 0, false⟩ (cString s) with
  | none => .unknown
  | some o =>
    if o.octets < 4 then .unknown
    else if h : (o.done ++ [UInt8.ofNat o.cur]).length = 4 then .v4 ⟨_, h⟩ else .unknown

/-- `tolower` -/
def toLower (c : UInt8) : UInt8 := if 65 ≤ c.toNat ∧ c.toNat ≤ 90 then c + 32 else c

/-- The bytes that are stored, where `::` stood, whether the word at hand has a digit, and its value. -/
structure Words where
  out : List UInt8
  colonp : Option Nat
  sawXdigit : Bool
  val : Nat

/-- The two bytes of a word. -/
def wordBytes (val : Nat) : List UInt8 := [UInt8.ofNat (val >>> 8), UInt8.ofNat val]

/-- The loop of `from_v6`. -/
def scanV6 (s : Words) : Text → Option Words
  | [] => some s
  | ch :: rest =>
    match xdigits.idxOf? (toLower ch) with
    | some d =>
      let val := s.val <<< 4 ||| d
      if 0xffff < val then none else scanV6 { s with sawXdigit := true, val := val } rest
    | none =>
      if ch = colon then
        if !s.sawXdigit then
          if s.colonp.isSome then none else scanV6 { s with colonp := some s.out.length } rest
        else if rest = [] then none
        else if 16 < s.out.length + 2 then none
        else scanV6 { s with out := s.out ++ wordBytes s.val, sawXdigit := false, val := 0 } rest
      else none

/-- The loop that moves the `n` bytes behind `::` to the end of the sixteen, after `i` turns. -/
def shift (tmp : List UInt8) (colonp n : Nat) : Nat → List UInt8
  | 0 => tmp
  | i + 1 =>
    let tmp := shift tmp colonp n i
    (tmp.set (16 - (i + 1)) (tmp.getD (colonp + n - (i + 1)) 0)).set (colonp + n - (i + 1)) 0

/-- The sixteen bytes when all is read: those behind `::` are moved to the end. -/
def place (colonp : Option Nat) (out : List UInt8) : Option (List UInt8) :=
  match colonp with
  | none => if out.length = 16 then some out else none
  | some c =>
    if out.length = 16 then none
    else some (shift (out ++ List.replicate (16 - out.length) 0) c (out.length - c) (out.length - c))

def finish (s : Words) : Option (List UInt8) :=
  if s.sawXdigit then if 16 < s.out.length + 2 then none else place s.colonp (s.out ++ wordBytes s.val)
  else place s.colonp s.out

/-- What stands before the loop: a colon at the start has to be followed by another. -/
def leading : Text → Option Text
  | [] => some []
  | c :: rest => if c = colon then if rest.head? = some colon then some rest else none else some (c :: rest)

/-- `from_v6` -/
def fromV6 (s : Text) : Address :=
  match ((leading (cString s)).bind (scanV6 ⟨[], none, false, 0⟩)).bind finish with
  | none => .unknown
  | some bs => if h : bs.length = 16 then .v6 ⟨bs, h⟩ else .unknown

/-- `from_string`, in the constructor from a string. -/
def ofString (s : Text) : Address := if colon ∈ s then fromV6 s else fromV4 s

end Nodeoze.Net.Address
