import Nodeoze.Lib.Reader

/-!
# Type codes and errors of the bstream format

The constants and predicates of `typecode.h`, the error codes of `error.h`, and the ways in which
a call of the stream classes can end without a value.
-/

namespace Nodeoze.Bstream

/-- The error codes of the bstream category, and of `std::errc` the one that `write_ext` reports. -/
inductive Errc
  | readPastEndOfStream
  | typeError
  | memberCountError
  | contextMismatch
  | invalidErrCategory
  | invalidPtrDowncast
  | abstractNonPolyClass
  | invalidOperation
  | invalidState
  | ibstreambufNotShareable
  | invalidArgument
  deriving DecidableEq, Repr

/-- How a stream call can end without a value: a `std::system_error` with a code, the `type_error`
exception (a `std::logic_error`), `std::bad_typeid`, an operation whose behaviour the language
leaves undefined, or (of the model only) a recursion deeper than the fuel given. -/
inductive Fault
  | system (e : Errc)
  | typeError
  | badTypeid
  | undefined
  | fuel
  deriving DecidableEq, Repr

/-- The call threw a `std::system_error`. -/
def Fault.IsSystem (e : Fault) : Prop := ∃ c, e = .system c

/-- The error of a read past the end of the stream. -/
abbrev eof : Fault := .system .readPastEndOfStream

namespace Typecode

@[simp] abbrev positiveFixintMax : UInt8 := 0x7f
@[simp] abbrev fixmapMin : UInt8 := 0x80
@[simp] abbrev fixmapMax : UInt8 := 0x8f
@[simp] abbrev fixarrayMin : UInt8 := 0x90
@[simp] abbrev fixarrayMax : UInt8 := 0x9f
@[simp] abbrev fixstrMin : UInt8 := 0xa0
@[simp] abbrev fixstrMax : UInt8 := 0xbf
@[simp] abbrev nil : UInt8 := 0xc0
@[simp] abbrev unused : UInt8 := 0xc1
@[simp] abbrev boolFalse : UInt8 := 0xc2
@[simp] abbrev boolTrue : UInt8 := 0xc3
@[simp] abbrev bin8 : UInt8 := 0xc4
@[simp] abbrev bin16 : UInt8 := 0xc5
@[simp] abbrev bin32 : UInt8 := 0xc6
@[simp] abbrev ext8 : UInt8 := 0xc7
@[simp] abbrev ext16 : UInt8 := 0xc8
@[simp] abbrev ext32 : UInt8 := 0xc9
@[simp] abbrev float32 : UInt8 := 0xca
@[simp] abbrev float64 : UInt8 := 0xcb
@[simp] abbrev uint8 : UInt8 := 0xcc
@[simp] abbrev uint16 : UInt8 := 0xcd
@[simp] abbrev uint32 : UInt8 := 0xce
@[simp] abbrev uint64 : UInt8 := 0xcf
@[simp] abbrev int8 : UInt8 := 0xd0
@[simp] abbrev int16 : UInt8 := 0xd1
@[simp] abbrev int32 : UInt8 := 0xd2
@[simp] abbrev int64 : UInt8 := 0xd3
@[simp] abbrev fixext1 : UInt8 := 0xd4
@[simp] abbrev fixext2 : UInt8 := 0xd5
@[simp] abbrev fixext4 : UInt8 := 0xd6
@[simp] abbrev fixext8 : UInt8 := 0xd7
@[simp] abbrev fixext16 : UInt8 := 0xd8
@[simp] abbrev str8 : UInt8 := 0xd9
@[simp] abbrev str16 : UInt8 := 0xda
@[simp] abbrev str32 : UInt8 := 0xdb
@[simp] abbrev array16 : UInt8 := 0xdc
@[simp] abbrev array32 : UInt8 := 0xdd
@[simp] abbrev map16 : UInt8 := 0xde
@[simp] abbrev map32 : UInt8 := 0xdf
@[simp] abbrev negativeFixintMin : UInt8 := 0xe0

/-- `typecode::is_positive_int`; the code of a 32-bit unsigned number is not among its cases. -/
def isPositiveInt (code : UInt8) : Bool :=
  code ≤ positiveFixintMax || code == uint8 || code == uint16 || code == uint64

/-- `typecode::is_int`; nor is that of a 32-bit signed one. -/
def isInt (code : UInt8) : Bool :=
  isPositiveInt code || negativeFixintMin ≤ code || code == int8 || code == int16 || code == int64

def isFloating (code : UInt8) : Bool := code == float32 || code == float64

def isNil (code : UInt8) : Bool := code == nil

def isArray (code : UInt8) : Bool :=
  (fixarrayMin ≤ code && code ≤ fixarrayMax) || code == array16 || code == array32

def isMap (code : UInt8) : Bool :=
  (fixmapMin ≤ code && code ≤ fixmapMax) || code == map16 || code == map32

def isString (code : UInt8) : Bool :=
  (fixstrMin ≤ code && code ≤ fixstrMax) || code == str8 || code == str16 || code == str32

def isBlob (code : UInt8) : Bool := code == bin8 || code == bin16 || code == bin32

def isBool (code : UInt8) : Bool := code == boolTrue || code == boolFalse

end Typecode

end Nodeoze.Bstream
