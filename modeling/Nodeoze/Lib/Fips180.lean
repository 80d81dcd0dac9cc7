import Nodeoze.Lib.Endian

/-!
# SHA-1

The secure hash algorithm of FIPS 180: messages are padded to whole blocks of 64 bytes, and each block
is compressed into five words.  `absorb` compresses the whole blocks of some bytes and keeps the rest,
so that a message may come in pieces.
-/

namespace Fips180

open Endian

/-- The five words of a hash value, or the working variables. -/
structure Words where
  a : UInt32
  b : UInt32
  c : UInt32
  d : UInt32
  e : UInt32
  deriving DecidableEq, Repr

def initial : Words := ⟨0x67452301, 0xefcdab89, 0x98badcfe, 0x10325476, 0xc3d2e1f0⟩

def rotl (n x : UInt32) : UInt32 := (x <<< n) ||| (x >>> (32 - n))

def ch (x y z : UInt32) : UInt32 := (x &&& y) ^^^ (~~~x &&& z)

def parity (x y z : UInt32) : UInt32 := x ^^^ y ^^^ z

def maj (x y z : UInt32) : UInt32 := (x &&& y) ^^^ (x &&& z) ^^^ (y &&& z)

def f (t : Nat) : UInt32 → UInt32 → UInt32 → UInt32 :=
  if t < 20 then ch else if t < 40 then parity else if t < 60 then maj else parity

def k (t : Nat) : UInt32 :=
  if t < 20 then 0x5a827999 else if t < 40 then 0x6ed9eba1 else if t < 60 then 0x8f1bbcdc else 0xca62c1d6

/-- The message schedule. -/
def schedule (m : Nat → UInt32) (t : Nat) : UInt32 :=
  if t < 16 then m t
  else rotl 1 (schedule m (t - 3) ^^^ schedule m (t - 8) ^^^ schedule m (t - 14) ^^^ schedule m (t - 16))
termination_by t

def round (w : Nat → UInt32) (s : Words) (t : Nat) : Words :=
  ⟨rotl 5 s.a + f t s.b s.c s.d + s.e + k t + w t, s.a, rotl 30 s.b, s.c, s.d⟩

/-- The working variables before round `t`. -/
def rounds (w : Nat → UInt32) (h : Words) (t : Nat) : Words := (List.range t).foldl (round w) h

def add (h s : Words) : Words := ⟨h.a + s.a, h.b + s.b, h.c + s.c, h.d + s.d, h.e + s.e⟩

def blockWord (block : List UInt8) (i : Nat) : UInt32 :=
  UInt32.ofNat (Order.big.value ((block.drop (4 * i)).take 4))

def compress (h : Words) (block : List UInt8) : Words :=
  add h (rounds (schedule (blockWord block)) h 80)

/-- The whole blocks of `bs`, and what is left. -/
def absorb (h : Words) (bs : List UInt8) : Words × List UInt8 :=
  if bs.length < 64 then (h, bs) else absorb (compress h (bs.take 64)) (bs.drop 64)
termination_by bs.length
decreasing_by
  rw [List.length_drop]
  omega

/-- The padding of a message with `length` bytes. -/
def pad (length : Nat) : List UInt8 :=
  0x80 :: List.replicate ((119 - length % 64) % 64) 0 ++ Order.big.bytes 8 (8 * length)

def hash (m : List UInt8) : Words := (absorb initial (m ++ pad m.length)).1

def digest (m : List UInt8) : List UInt8 :=
  let h := hash m
  [h.a, h.b, h.c, h.d, h.e].flatMap fun x => Order.big.bytes 4 x.toNat

/-! ## Pieces of a message -/

theorem absorb_of_lt (h : Words) {bs : List UInt8} (hlength : bs.length < 64) : absorb h bs = (h, bs) := by
  rw [absorb, if_pos hlength]

theorem absorb_block (h : Words) {block : List UInt8} (hlength : block.length = 64) (bs : List UInt8) :
    absorb h (block ++ bs) = absorb (compress h block) bs := by
  have htake : (block ++ bs).take 64 = block := by
    rw [← hlength]
    exact List.take_left
  have hdrop : (block ++ bs).drop 64 = bs := by
    rw [← hlength]
    exact List.drop_left
  rw [absorb, if_neg (by simp [hlength]), htake, hdrop]

/-- A single block. -/
theorem absorb_single (h : Words) {block : List UInt8} (hlength : block.length = 64) :
    absorb h block = (compress h block, []) := by
  have hblock := absorb_block h hlength []
  rwa [List.append_nil, @absorb_of_lt _ [] (by decide)] at hblock

theorem absorb_append (h : Words) (xs ys : List UInt8) :
    absorb h (xs ++ ys) = absorb (absorb h xs).1 ((absorb h xs).2 ++ ys) := by
  induction h, xs using absorb.induct with
  | case1 h xs hlt => rw [absorb_of_lt h hlt]
  | case2 h xs hge ih =>
    have hlength : (xs.take 64).length = 64 := by
      rw [List.length_take]
      omega
    have hxs : xs = xs.take 64 ++ xs.drop 64 := (List.take_append_drop 64 xs).symm
    have hblock : absorb h xs = absorb (compress h (xs.take 64)) (xs.drop 64) := by
      rw [absorb, if_neg hge]
    rw [hblock, ← ih]
    conv_lhs => rw [hxs, List.append_assoc]
    exact absorb_block h hlength _

theorem length_absorb (h : Words) (bs : List UInt8) : (absorb h bs).2.length = bs.length % 64 := by
  induction h, bs using absorb.induct with
  | case1 h bs hlt => rw [absorb_of_lt h hlt, Nat.mod_eq_of_lt hlt]
  | case2 h bs hge ih =>
    rw [absorb, if_neg hge, ih, List.length_drop]
    omega

theorem rounds_succ (w : Nat → UInt32) (h : Words) (t : Nat) :
    rounds w h (t + 1) = round w (rounds w h t) t := by
  rw [rounds, List.range_succ, List.foldl_append]
  rfl

theorem schedule_of_lt (m : Nat → UInt32) {t : Nat} (ht : t < 16) : schedule m t = m t := by
  rw [schedule, if_pos ht]

theorem schedule_of_ge (m : Nat → UInt32) {t : Nat} (ht : 16 ≤ t) :
    schedule m t = rotl 1 (schedule m (t - 3) ^^^ schedule m (t - 8) ^^^ schedule m (t - 14) ^^^
      schedule m (t - 16)) := by
  rw [schedule, if_neg (by omega)]

end Fips180
