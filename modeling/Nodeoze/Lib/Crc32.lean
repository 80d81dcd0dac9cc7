import Mathlib.Data.BitVec

/-!
# CRC-32

The checksum with the polynomial 04C11DB7, bits in reflected order, the register all ones at the start and
complemented at the end; and what is asked of an object that computes it.
-/

namespace Crc32

/-- The polynomial in reflected order. -/
def polynomial : BitVec 32 := 0xEDB88320

def bitStep (crc : BitVec 32) : BitVec 32 :=
  if crc.getLsbD 0 then crc >>> 1 ^^^ polynomial else crc >>> 1

def bits : Nat → BitVec 32 → BitVec 32
  | 0, crc => crc
  | n + 1, crc => bits n (bitStep crc)

def byteStep (crc : BitVec 32) (b : UInt8) : BitVec 32 := bits 8 (crc ^^^ b.toBitVec.setWidth 32)

def update (crc : BitVec 32) (bytes : List UInt8) : BitVec 32 := bytes.foldl byteStep crc

def crc32 (bytes : List UInt8) : BitVec 32 := ~~~update (BitVec.allOnes 32) bytes

/-- The digits from 1 to 9. -/
example : crc32 [0x31, 0x32, 0x33, 0x34, 0x35, 0x36, 0x37, 0x38, 0x39] = 0xCBF43926 := by
  decide +kernel

/-- An object that is given bytes, some at a time, and tells the checksum of all that it was given. -/
structure Digest where
  State : Type
  fresh : State
  processBytes : State → List UInt8 → State
  checksum : State → BitVec 32

def Digest.IsCrc32 (d : Digest) : Prop :=
  ∀ parts : List (List UInt8), d.checksum (parts.foldl d.processBytes d.fresh) = crc32 parts.flatten

section

variable {d : Digest}

theorem Digest.IsCrc32.checksum_fresh (hd : d.IsCrc32) : d.checksum d.fresh = crc32 [] := hd []

theorem Digest.IsCrc32.checksum_bytes (hd : d.IsCrc32) (bytes : List UInt8) :
    d.checksum (d.processBytes d.fresh bytes) = crc32 bytes := by
  have hone := hd [bytes]
  rwa [List.flatten_singleton] at hone

end

/-- The digest that keeps the register. -/
def bitwise : Digest where
  State := BitVec 32
  fresh := BitVec.allOnes 32
  processBytes := update
  checksum crc := ~~~crc

theorem update_flatten (crc : BitVec 32) (parts : List (List UInt8)) :
    parts.foldl update crc = update crc parts.flatten := by
  induction parts generalizing crc with
  | nil => rfl
  | cons bytes parts ih =>
    rw [List.foldl_cons, ih, List.flatten_cons, update, update, update, List.foldl_append]

theorem bitwise_isCrc32 : bitwise.IsCrc32 := by
  intro parts
  exact congrArg _ (update_flatten _ parts)

end Crc32
