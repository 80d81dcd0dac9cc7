import Nodeoze.Lib.Counter
import Nodeoze.Lib.Fips180
import Mathlib.Logic.Function.Basic

/-!
# The hash of `crypto::hash::sha1`

`sha1` takes a message in pieces. It keeps the five words of the hash so far, the bytes that do not
fill a block yet, and the number of blocks.  A piece is read like a stream, at first what is missing
in the block and then block by block, until the stream has less than was asked for.

`transform` is a list of calls of five macros.  The working variables change their roles from call to
call instead of their places, and the words of the message schedule replace the words of the block
from which they were computed.
-/

namespace Nodeoze.Crypto

open Fips180 (Words)

/-- The working variables of `transform`. -/
inductive Var
  | a | b | c | d | e
  deriving DecidableEq, Repr

/-- The macros `R0` to `R4` -/
inductive Macro
  | r0 | r1 | r2 | r3 | r4
  deriving DecidableEq, Repr

/-- A call of a macro. -/
structure Call where
  macro_ : Macro
  v : Var
  w : Var
  x : Var
  y : Var
  z : Var
  i : Nat
  deriving DecidableEq, Repr

/-- `sha1` -/
structure Sha1 where
  digest : Words
  buffer : List UInt8
  transforms : UInt64

namespace Sha1

def rol (value bits : UInt32) : UInt32 := (value <<< bits) ||| ((value &&& 0xffffffff) >>> (32 - bits))

/-- `blk(i)`, which also writes to the block -/
def blk (block : List UInt32) (i : Nat) : UInt32 × List UInt32 :=
  let value := rol (block.getD ((i + 13) &&& 15) 0 ^^^ block.getD ((i + 8) &&& 15) 0 ^^^
    block.getD ((i + 2) &&& 15) 0 ^^^ block.getD (i &&& 15) 0) 1
  (value, block.set (i &&& 15) value)

/-- The working variables and the block. -/
structure Work where
  vars : Var → UInt32
  block : List UInt32

def mix : Macro → UInt32 → UInt32 → UInt32 → UInt32
  | .r0, w, x, y => (w &&& (x ^^^ y)) ^^^ y
  | .r1, w, x, y => (w &&& (x ^^^ y)) ^^^ y
  | .r2, w, x, y => w ^^^ x ^^^ y
  | .r3, w, x, y => ((w ||| x) &&& y) ||| (w &&& x)
  | .r4, w, x, y => w ^^^ x ^^^ y

def constant : Macro → UInt32
  | .r0 => 0x5a827999
  | .r1 => 0x5a827999
  | .r2 => 0x6ed9eba1
  | .r3 => 0x8f1bbcdc
  | .r4 => 0xca62c1d6

/-- The word of the block that a macro takes, and the block behind it. -/
def fetch (block : List UInt32) (i : Nat) : Macro → UInt32 × List UInt32
  | .r0 => (block.getD i 0, block)
  | _ => blk block i

/-- `z += mix(w,x,y) + word + constant + rol(v,5); w=rol(w,30);` -/
def exec (s : Work) (call : Call) : Work :=
  let (word, block) := fetch s.block call.i call.macro_
  let z := s.vars call.z +
    (mix call.macro_ (s.vars call.w) (s.vars call.x) (s.vars call.y) + word + constant call.macro_ +
      rol (s.vars call.v) 5)
  let vars := Function.update s.vars call.z z
  ⟨Function.update vars call.w (rol (vars call.w) 30), block⟩

def r0 (v w x y z : Var) (i : Nat) : Call := ⟨.r0, v, w, x, y, z, i⟩
def r1 (v w x y z : Var) (i : Nat) : Call := ⟨.r1, v, w, x, y, z, i⟩
def r2 (v w x y z : Var) (i : Nat) : Call := ⟨.r2, v, w, x, y, z, i⟩
def r3 (v w x y z : Var) (i : Nat) : Call := ⟨.r3, v, w, x, y, z, i⟩
def r4 (v w x y z : Var) (i : Nat) : Call := ⟨.r4, v, w, x, y, z, i⟩

open Var in
/-- The body of `transform` -/
def calls : List Call :=
  [r0 a b c d e 0, r0 e a b c d 1, r0 d e a b c 2, r0 c d e a b 3, r0 b c d e a 4,
   r0 a b c d e 5, r0 e a b c d 6, r0 d e a b c 7, r0 c d e a b 8, r0 b c d e a 9,
   r0 a b c d e 10, r0 e a b c d 11, r0 d e a b c 12, r0 c d e a b 13, r0 b c d e a 14,
   r0 a b c d e 15, r1 e a b c d 16, r1 d e a b c 17, r1 c d e a b 18, r1 b c d e a 19,
   r2 a b c d e 20, r2 e a b c d 21, r2 d e a b c 22, r2 c d e a b 23, r2 b c d e a 24,
   r2 a b c d e 25, r2 e a b c d 26, r2 d e a b c 27, r2 c d e a b 28, r2 b c d e a 29,
   r2 a b c d e 30, r2 e a b c d 31, r2 d e a b c 32, r2 c d e a b 33, r2 b c d e a 34,
   r2 a b c d e 35, r2 e a b c d 36, r2 d e a b c 37, r2 c d e a b 38, r2 b c d e a 39,
   r3 a b c d e 40, r3 e a b c d 41, r3 d e a b c 42, r3 c d e a b 43, r3 b c d e a 44,
   r3 a b c d e 45, r3 e a b c d 46, r3 d e a b c 47, r3 c d e a b 48, r3 b c d e a 49,
   r3 a b c d e 50, r3 e a b c d 51, r3 d e a b c 52, r3 c d e a b 53, r3 b c d e a 54,
   r3 a b c d e 55, r3 e a b c d 56, r3 d e a b c 57, r3 c d e a b 58, r3 b c d e a 59,
   r4 a b c d e 60, r4 e a b c d 61, r4 d e a b c 62, r4 c d e a b 63, r4 b c d e a 64,
   r4 a b c d e 65, r4 e a b c d 66, r4 d e a b c 67, r4 c d e a b 68, r4 b c d e a 69,
   r4 a b c d e 70, r4 e a b c d 71, r4 d e a b c 72, r4 c d e a b 73, r4 b c d e a 74,
   r4 a b c d e 75, r4 e a b c d 76, r4 d e a b c 77, r4 c d e a b 78, r4 b c d e a 79]

/-- The digest in the working variables. -/
def load (digest : Words) : Var → UInt32
  | .a => digest.a
  | .b => digest.b
  | .c => digest.c
  | .d => digest.d
  | .e => digest.e

/-- `sha1::transform`, which leaves the block changed -/
def transform (s : Sha1) (block : List UInt32) : Sha1 × List UInt32 :=
  let work := calls.foldl exec ⟨load s.digest, block⟩
  let digest : Words := ⟨s.digest.a + work.vars .a, s.digest.b + work.vars .b,
    s.digest.c + work.vars .c, s.digest.d + work.vars .d, s.digest.e + work.vars .e⟩
  (⟨digest, s.buffer, s.transforms + 1⟩, work.block)

/-- `( buffer[ i ] & 0xff )` -/
def byteAt (buffer : List UInt8) (i : Nat) : UInt32 := (buffer.getD i 0).toUInt32 &&& 0xff

/-- `sha1::buffer_to_block` -/
def bufferToBlock (buffer : List UInt8) : List UInt32 :=
  (List.range 16).map fun i =>
    byteAt buffer (4 * i + 3) ||| (byteAt buffer (4 * i + 2) <<< 8) |||
      (byteAt buffer (4 * i + 1) <<< 16) ||| (byteAt buffer (4 * i + 0) <<< 24)

/-- `std::istringstream`: what is left, and whether every read so far got what it asked for -/
structure IStream where
  rest : List UInt8
  good : Bool

/-- `sha1::read` -/
def read (is : IStream) (max : Nat) : List UInt8 × IStream :=
  if is.good then (is.rest.take max, ⟨is.rest.drop max, decide (max ≤ is.rest.length)⟩) else ([], is)

/-- The loop of `update` -/
def updateLoop (s : Sha1) (is : IStream) : Sha1 :=
  if is.good then
    let s' := (transform s (bufferToBlock s.buffer)).1
    updateLoop { s' with buffer := (read is 64).1 } (read is 64).2
  else s
termination_by is.rest.length + is.good.toNat
decreasing_by
  rename_i hgood
  rw [read, if_pos hgood, hgood]
  by_cases h : 64 ≤ is.rest.length
  · simp only [List.length_drop, h, decide_true, Bool.toNat_true]
    omega
  · simp only [List.length_drop, h, decide_false, Bool.toNat_false, Bool.toNat_true]
    omega

/-- `sha1::update` of a string -/
def update (s : Sha1) (bytes : List UInt8) : Sha1 :=
  let (restOfBuffer, is) := read ⟨bytes, true⟩ (64 - s.buffer.length)
  updateLoop { s with buffer := s.buffer ++ restOfBuffer } is

/-- `sha1::reset` -/
def reset : Sha1 := ⟨⟨0x67452301, 0xefcdab89, 0x98badcfe, 0x10325476, 0xc3d2e1f0⟩, [], 0⟩

/-- `result << std::hex << std::setfill('0') << std::setw(8) << value` -/
def putHex (value : UInt32) : List Char := List.leftpad 8 '0' (Nat.toDigits 16 value.toNat)

/-- `final` up to its last `transform` -/
def finish (s : Sha1) : Sha1 :=
  let totalBits : UInt64 := (s.transforms * 64 + UInt64.ofNat s.buffer.length) * 8
  let buffer := s.buffer ++ [0x80]
  let origSize := buffer.length % 2 ^ 32
  let buffer := buffer ++ List.replicate (64 - buffer.length) 0x00
  let block := bufferToBlock buffer
  let (s, block) :=
    if origSize > 64 - 8 then
      let (s, block) := transform s block
      (s, (List.range (16 - 2)).foldl (fun block i => block.set i 0) block)
    else (s, block)
  let block := block.set (16 - 1) totalBits.toUInt32
  let block := block.set (16 - 2) (totalBits >>> 32).toUInt32
  (transform s block).1

/-- `sha1::final`, and the object behind it -/
def final (s : Sha1) : List Char × Sha1 :=
  let digest := (finish s).digest
  ([digest.a, digest.b, digest.c, digest.d, digest.e].flatMap fun x => putHex (x &&& 0xffffffff), reset)

/-! ## The rounds -/

theorem rol_eq (x n : UInt32) : rol x n = Fips180.rotl n x := by
  have hall : x &&& 0xffffffff = x := UInt32.and_neg_one
  rw [rol, hall, Fips180.rotl]

theorem mix_ch (x y z : UInt32) : (x &&& (y ^^^ z)) ^^^ z = Fips180.ch x y z := by
  apply UInt32.toBitVec_inj.mp
  ext i
  simp only [Fips180.ch, UInt32.toBitVec_xor, UInt32.toBitVec_and, UInt32.toBitVec_not, BitVec.getElem_xor,
    BitVec.getElem_and, BitVec.getElem_not]
  cases x.toBitVec[i] <;> cases y.toBitVec[i] <;> cases z.toBitVec[i] <;> rfl

theorem mix_maj (x y z : UInt32) : ((x ||| y) &&& z) ||| (x &&& y) = Fips180.maj x y z := by
  apply UInt32.toBitVec_inj.mp
  ext i
  simp only [Fips180.maj, UInt32.toBitVec_xor, UInt32.toBitVec_and, UInt32.toBitVec_or, BitVec.getElem_xor,
    BitVec.getElem_and, BitVec.getElem_or]
  cases x.toBitVec[i] <;> cases y.toBitVec[i] <;> cases z.toBitVec[i] <;> rfl

/-- The macro of round `t`. -/
def macroAt (t : Nat) : Macro :=
  if t < 16 then .r0 else if t < 20 then .r1 else if t < 40 then .r2 else if t < 60 then .r3 else .r4

/-- The call of round `t`. -/
def callAt (t : Nat) : Call :=
  match t % 5 with
  | 0 => ⟨macroAt t, .a, .b, .c, .d, .e, t⟩
  | 1 => ⟨macroAt t, .e, .a, .b, .c, .d, t⟩
  | 2 => ⟨macroAt t, .d, .e, .a, .b, .c, t⟩
  | 3 => ⟨macroAt t, .c, .d, .e, .a, .b, t⟩
  | _ => ⟨macroAt t, .b, .c, .d, .e, .a, t⟩

theorem calls_eq : calls = (List.range 80).map callAt := by decide +kernel

theorem mix_macroAt (t : Nat) (x y z : UInt32) : mix (macroAt t) x y z = Fips180.f t x y z := by
  unfold macroAt Fips180.f
  split_ifs with h16 h20 h40 h60 <;> first | omega | exact mix_ch x y z | exact mix_maj x y z | rfl

theorem constant_macroAt (t : Nat) : constant (macroAt t) = Fips180.k t := by
  unfold macroAt Fips180.k
  split_ifs with h16 h20 h40 h60 <;> first | omega | rfl

/-- The words of the block stand for the sixteen latest words of the schedule. -/
def Scheduled (m : Nat → UInt32) (t : Nat) (block : List UInt32) : Prop :=
  block.length = 16 ∧
    ∀ i, max t 16 - 16 ≤ i → i < max t 16 → block.getD (i % 16) 0 = Fips180.schedule m i

/-- What a macro takes from the block is the word of its round. -/
theorem fetch_spec {m : Nat → UInt32} {t : Nat} {block : List UInt32} (h : Scheduled m t block) :
    (fetch block t (macroAt t)).1 = Fips180.schedule m t ∧
      Scheduled m (t + 1) (fetch block t (macroAt t)).2 := by
  obtain ⟨hlength, hwords⟩ := h
  by_cases ht : t < 16
  · have hcall : macroAt t = .r0 := if_pos ht
    have hword := hwords t (by omega) (by omega)
    rw [Nat.mod_eq_of_lt ht] at hword
    rw [hcall]
    refine ⟨hword, hlength, ?_⟩
    intro i hlow hhigh
    exact hwords i (by omega) (by omega)
  · have hcall : fetch block t (macroAt t) = blk block t := by
      unfold macroAt
      split_ifs <;> rfl
    have hand : ∀ n, n &&& 15 = n % 16 := fun n => Nat.and_two_pow_sub_one_eq_mod n 4
    have hback : ∀ i, t - 16 ≤ i → i < t → block.getD (i % 16) 0 = Fips180.schedule m i :=
      fun i hlow hhigh => hwords i (by omega) (by omega)
    have h13 : (t + 13) &&& 15 = (t - 3) % 16 := by
      rw [hand]
      omega
    have h8 : (t + 8) &&& 15 = (t - 8) % 16 := by
      rw [hand]
      omega
    have h2 : (t + 2) &&& 15 = (t - 14) % 16 := by
      rw [hand]
      omega
    have h0 : t &&& 15 = (t - 16) % 16 := by
      rw [hand]
      omega
    have hvalue : (blk block t).1 = Fips180.schedule m t := by
      rw [Fips180.schedule_of_ge m (by omega), blk]
      dsimp only
      rw [h13, h8, h2, h0, hback _ (by omega) (by omega), hback _ (by omega) (by omega),
        hback _ (by omega) (by omega), hback _ (by omega) (by omega), rol_eq]
    rw [hcall]
    refine ⟨hvalue, ?_, ?_⟩
    · rw [blk, List.length_set, hlength]
    · intro i hlow hhigh
      have hset : (blk block t).2 = block.set (t % 16) (Fips180.schedule m t) := by
        rw [← hvalue, ← hand]
        rfl
      rw [hset, List.getD_eq_getElem?_getD, List.getElem?_set]
      by_cases hi : i = t
      · subst hi
        rw [if_pos rfl, if_pos (by omega)]
        rfl
      · rw [if_neg (by omega), ← List.getD_eq_getElem?_getD]
        exact hback i (by omega) (by omega)

/-- Before call `t` the working variables stand for those of the standard, under other names. -/
structure Follows (m : Nat → UInt32) (h : Words) (t : Nat) (s : Work) : Prop where
  v : s.vars (callAt t).v = (Fips180.rounds (Fips180.schedule m) h t).a
  w : s.vars (callAt t).w = (Fips180.rounds (Fips180.schedule m) h t).b
  x : s.vars (callAt t).x = (Fips180.rounds (Fips180.schedule m) h t).c
  y : s.vars (callAt t).y = (Fips180.rounds (Fips180.schedule m) h t).d
  z : s.vars (callAt t).z = (Fips180.rounds (Fips180.schedule m) h t).e
  block : Scheduled m t s.block

/-- The names of the next call, and that the names of a call differ. -/
theorem callAt_succ (t : Nat) :
    (callAt (t + 1)).v = (callAt t).z ∧ (callAt (t + 1)).w = (callAt t).v ∧
      (callAt (t + 1)).x = (callAt t).w ∧ (callAt (t + 1)).y = (callAt t).x ∧
      (callAt (t + 1)).z = (callAt t).y ∧
      [(callAt t).v, (callAt t).w, (callAt t).x, (callAt t).y, (callAt t).z].Nodup ∧
      (callAt t).macro_ = macroAt t ∧ (callAt t).i = t := by
  have h5 : t % 5 = 0 ∨ t % 5 = 1 ∨ t % 5 = 2 ∨ t % 5 = 3 ∨ t % 5 = 4 := by omega
  rcases h5 with h | h | h | h | h
  · have hnext : (t + 1) % 5 = 1 := by omega
    simp [callAt, h, hnext]
  · have hnext : (t + 1) % 5 = 2 := by omega
    simp [callAt, h, hnext]
  · have hnext : (t + 1) % 5 = 3 := by omega
    simp [callAt, h, hnext]
  · have hnext : (t + 1) % 5 = 4 := by omega
    simp [callAt, h, hnext]
  · have hnext : (t + 1) % 5 = 0 := by omega
    simp [callAt, h, hnext]

theorem sum_eq (a f e k w : UInt32) : e + (f + w + k + a) = a + f + e + k + w := by
  ac_rfl

/-- A call is a round. -/
theorem Follows.step {m : Nat → UInt32} {h : Words} {t : Nat} {s : Work} (hs : Follows m h t s) :
    Follows m h (t + 1) (exec s (callAt t)) := by
  obtain ⟨hv, hw, hx, hy, hz, hnodup, hcall, hi⟩ := callAt_succ t
  obtain ⟨hword, hblock⟩ := fetch_spec hs.block
  simp only [List.nodup_cons, List.mem_cons, List.not_mem_nil, or_false, not_or] at hnodup
  obtain ⟨⟨hvw, hvx, hvy, hvz⟩, ⟨hwx, hwy, hwz⟩, ⟨hxy, hxz⟩, hyz, -⟩ := hnodup
  let S := Fips180.rounds (Fips180.schedule m) h t
  have hsucc : Fips180.rounds (Fips180.schedule m) h (t + 1)
      = ⟨Fips180.rotl 5 S.a + Fips180.f t S.b S.c S.d + S.e + Fips180.k t + Fips180.schedule m t, S.a,
        Fips180.rotl 30 S.b, S.c, S.d⟩ := Fips180.rounds_succ _ _ _
  have hz' : (exec s (callAt t)).vars (callAt t).z
      = Fips180.rotl 5 S.a + Fips180.f t S.b S.c S.d + S.e + Fips180.k t + Fips180.schedule m t := by
    simp only [exec, hcall, hi, hword, mix_macroAt, constant_macroAt, rol_eq, hs.v, hs.w, hs.x, hs.y, hs.z]
    rw [Function.update_of_ne (Ne.symm hwz), Function.update_self]
    exact sum_eq _ _ _ _ _
  have hother : ∀ n, n ≠ (callAt t).w → n ≠ (callAt t).z → (exec s (callAt t)).vars n = s.vars n := by
    intro n hnw hnz
    simp only [exec]
    rw [Function.update_of_ne hnw, Function.update_of_ne hnz]
  have hw' : (exec s (callAt t)).vars (callAt t).w = Fips180.rotl 30 S.b := by
    simp only [exec]
    rw [Function.update_self, Function.update_of_ne hwz, hs.w, rol_eq]
  constructor
  · rw [hv, hz', hsucc]
  · rw [hw, hother _ hvw hvz, hs.v, hsucc]
  · rw [hx, hw', hsucc]
  · rw [hy, hother _ (Ne.symm hwx) hxz, hs.x, hsucc]
  · rw [hz, hother _ (Ne.symm hwy) hyz, hs.y, hsucc]
  · have hexec : (exec s (callAt t)).block = (fetch s.block t (macroAt t)).2 := by
      rw [exec, hcall, hi]
    rw [hexec]
    exact hblock

/-- All calls are all rounds. -/
theorem follows_calls {m : Nat → UInt32} {block : List UInt32} (hlength : block.length = 16)
    (hblock : ∀ i < 16, block.getD i 0 = m i) (h : Words) :
    Follows m h 80 (calls.foldl exec ⟨load h, block⟩) := by
  rw [calls_eq]
  generalize 80 = t
  induction t with
  | zero =>
    refine ⟨rfl, rfl, rfl, rfl, rfl, hlength, ?_⟩
    intro i _ hi
    have hlt : i < 16 := by omega
    rw [Nat.mod_eq_of_lt hlt, Fips180.schedule_of_lt m hlt]
    exact hblock i hlt
  | succ t ih =>
    rw [List.range_succ, List.map_append, List.foldl_append]
    exact ih.step

theorem transform_fst (s : Sha1) (block : List UInt32) {work : Work}
    (hwork : calls.foldl exec ⟨load s.digest, block⟩ = work) :
    transform s block = (⟨Fips180.add s.digest ⟨work.vars .a, work.vars .b, work.vars .c, work.vars .d,
      work.vars .e⟩, s.buffer, s.transforms + 1⟩, work.block) := by
  rw [transform, hwork]
  rfl

/-- `transform` compresses a block. -/
theorem transform_eq (s : Sha1) {block : List UInt32} {bytes : List UInt8} (hlength : block.length = 16)
    (hblock : ∀ i < 16, block.getD i 0 = Fips180.blockWord bytes i) :
    (transform s block).1 = ⟨Fips180.compress s.digest bytes, s.buffer, s.transforms + 1⟩ ∧
      (transform s block).2.length = 16 := by
  obtain ⟨work, hwork⟩ : ∃ work, calls.foldl exec ⟨load s.digest, block⟩ = work := ⟨_, rfl⟩
  have hnames : callAt 80 = ⟨.r4, .a, .b, .c, .d, .e, 80⟩ := by decide +kernel
  obtain ⟨hv, hw, hx, hy, hz, hscheduled⟩ := follows_calls hlength hblock s.digest
  rw [hwork, hnames] at hv hw hx hy hz
  rw [hwork] at hscheduled
  rw [transform_fst s block hwork]
  refine ⟨?_, hscheduled.1⟩
  rw [Fips180.compress]
  simp only [hv, hw, hx, hy, hz]

/-! ## Blocks of bytes -/

theorem byteAt_eq (buffer : List UInt8) (i : Nat) : byteAt buffer i = (buffer.getD i 0).toUInt32 := by
  apply UInt32.toNat_inj.mp
  have hlt : (buffer.getD i 0).toNat < 2 ^ 8 := (buffer.getD i 0).toNat_lt
  have hand : (buffer.getD i 0).toNat &&& 255 = (buffer.getD i 0).toNat % 2 ^ 8 :=
    Nat.and_two_pow_sub_one_eq_mod _ 8
  rw [byteAt, UInt32.toNat_and, UInt8.toNat_toUInt32]
  exact hand.trans (Nat.mod_eq_of_lt hlt)

theorem or_shift (x y : UInt32) (k : Nat) (hk : k < 32) (hx : x.toNat < 2 ^ k)
    (hy : y.toNat * 2 ^ k < 2 ^ 32) : (x ||| (y <<< UInt32.ofNat k)).toNat = x.toNat + y.toNat * 2 ^ k := by
  have hmod : (UInt32.ofNat k).toNat % 32 = k := by
    rw [UInt32.toNat_ofNat']
    omega
  rw [UInt32.toNat_or, UInt32.toNat_shiftLeft, hmod, Nat.shiftLeft_eq, Nat.mod_eq_of_lt hy, Nat.or_comm,
    ← Nat.shiftLeft_eq, ← Nat.shiftLeft_add_eq_or_of_lt hx, Nat.shiftLeft_eq, Nat.add_comm]

/-- The word of four bytes. -/
theorem or_bytes (b₀ b₁ b₂ b₃ : UInt8) :
    b₃.toUInt32 ||| (b₂.toUInt32 <<< 8) ||| (b₁.toUInt32 <<< 16) ||| (b₀.toUInt32 <<< 24)
      = UInt32.ofNat (Endian.Order.big.value [b₀, b₁, b₂, b₃]) := by
  have h₀ := b₀.toNat_lt
  have h₁ := b₁.toNat_lt
  have h₂ := b₂.toNat_lt
  have h₃ := b₃.toNat_lt
  have hfirst : (b₃.toUInt32 ||| (b₂.toUInt32 <<< 8)).toNat = b₃.toNat + b₂.toNat * 2 ^ 8 := by
    refine or_shift _ _ 8 (by decide) ?_ ?_ <;> rw [UInt8.toNat_toUInt32] <;> omega
  have hsecond : (b₃.toUInt32 ||| (b₂.toUInt32 <<< 8) ||| (b₁.toUInt32 <<< 16)).toNat
      = b₃.toNat + b₂.toNat * 2 ^ 8 + b₁.toNat * 2 ^ 16 := by
    rw [← hfirst]
    refine or_shift _ _ 16 (by decide) ?_ ?_
    · rw [hfirst]
      omega
    · rw [UInt8.toNat_toUInt32]
      omega
  have hthird := or_shift (b₃.toUInt32 ||| (b₂.toUInt32 <<< 8) ||| (b₁.toUInt32 <<< 16)) b₀.toUInt32 24
    (by decide) (by rw [hsecond]; omega) (by rw [UInt8.toNat_toUInt32]; omega)
  apply UInt32.toNat_inj.mp
  refine hthird.trans ?_
  rw [hsecond, UInt8.toNat_toUInt32, UInt32.toNat_ofNat']
  simp only [Endian.Order.value, List.reverse_cons, List.reverse_nil, List.nil_append, List.cons_append,
    Endian.leValue]
  omega

theorem length_bufferToBlock (buffer : List UInt8) : (bufferToBlock buffer).length = 16 := by
  simp [bufferToBlock]

theorem take_four {buffer : List UInt8} {i : Nat} (h : i + 4 ≤ buffer.length) :
    (buffer.drop i).take 4
      = [buffer.getD i 0, buffer.getD (i + 1) 0, buffer.getD (i + 2) 0, buffer.getD (i + 3) 0] := by
  apply List.ext_getElem
  · simp
    omega
  · intro j hj _
    rw [List.length_take] at hj
    have hj4 : j = 0 ∨ j = 1 ∨ j = 2 ∨ j = 3 := by omega
    rcases hj4 with rfl | rfl | rfl | rfl
    · simp [List.getD_eq_getElem?_getD, List.getElem?_eq_getElem (by omega : i < buffer.length)]
    · simp [List.getD_eq_getElem?_getD, List.getElem?_eq_getElem (by omega : i + 1 < buffer.length)]
    · simp [List.getD_eq_getElem?_getD, List.getElem?_eq_getElem (by omega : i + 2 < buffer.length)]
    · simp [List.getD_eq_getElem?_getD, List.getElem?_eq_getElem (by omega : i + 3 < buffer.length)]

theorem bufferToBlock_getD {buffer : List UInt8} {i : Nat} (hi : i < 16) (h : 4 * i + 4 ≤ buffer.length) :
    (bufferToBlock buffer).getD i 0 = Fips180.blockWord buffer i := by
  rw [Fips180.blockWord, take_four h, ← or_bytes]
  simp [bufferToBlock, List.getD_eq_getElem?_getD, hi, byteAt_eq]

/-! ## Updates -/

/-- What the object has of a message. -/
structure Represents (s : Sha1) (m : List UInt8) : Prop where
  absorbed : (s.digest, s.buffer) = Fips180.absorb Fips180.initial m
  counted : s.transforms * 64 + UInt64.ofNat s.buffer.length = UInt64.ofNat m.length

theorem Represents.reset : Represents reset [] := by
  constructor
  · rw [Fips180.absorb_of_lt _ (by decide)]
    rfl
  · rfl

theorem transform_bytes (s : Sha1) {bytes : List UInt8} (h : bytes.length = 64) :
    (transform s (bufferToBlock bytes)).1
      = ⟨Fips180.compress s.digest bytes, s.buffer, s.transforms + 1⟩ :=
  (transform_eq s (length_bufferToBlock bytes) fun i hi => bufferToBlock_getD hi (by omega)).1

/-- The loop takes block after block, and keeps what does not fill one. -/
theorem updateLoop_spec (s : Sha1) (is : IStream) (hgood : is.good = true → s.buffer.length = 64)
    (hend : is.good = false → s.buffer.length < 64 ∧ is.rest = []) :
    ((updateLoop s is).digest, (updateLoop s is).buffer) = Fips180.absorb s.digest (s.buffer ++ is.rest) ∧
      (updateLoop s is).transforms * 64 + UInt64.ofNat (updateLoop s is).buffer.length
        = s.transforms * 64 + UInt64.ofNat (s.buffer ++ is.rest).length := by
  induction s, is using updateLoop.induct with
  | case1 s is h s' ih =>
    have hlength := hgood h
    have ht := transform_bytes s hlength
    have hread : read is 64 = (is.rest.take 64, ⟨is.rest.drop 64, decide (64 ≤ is.rest.length)⟩) :=
      if_pos h
    have hrest := ih (by
      rw [hread]
      intro hmore
      rw [List.length_take]
      have := of_decide_eq_true hmore
      omega) (by
      rw [hread]
      intro hless
      have := of_decide_eq_false hless
      refine ⟨?_, List.drop_eq_nil_of_le (by omega)⟩
      rw [List.length_take]
      omega)
    have hjoin : (read is 64).1 ++ (read is 64).2.rest = is.rest := by
      rw [hread]
      exact List.take_append_drop 64 is.rest
    simp only [s', ht, hjoin] at hrest
    rw [updateLoop, if_pos h]
    simp only [ht]
    refine ⟨?_, ?_⟩
    · rw [Fips180.absorb_block _ hlength]
      exact hrest.1
    · refine hrest.2.trans ?_
      rw [List.length_append, hlength, UInt64.ofNat_add, UInt64.add_mul, UInt64.add_assoc]
      rfl
  | case2 s is h =>
    obtain ⟨hlt, hnil⟩ := hend (by simpa using h)
    rw [updateLoop, if_neg h, hnil, List.append_nil, Fips180.absorb_of_lt _ hlt]
    exact ⟨rfl, rfl⟩

/-- An update appends its bytes to the message. -/
theorem Represents.update {s : Sha1} {m : List UInt8} (h : Represents s m) (bytes : List UInt8) :
    Represents (update s bytes) (m ++ bytes) := by
  have hlength : s.buffer.length < 64 := by
    have := Fips180.length_absorb Fips180.initial m
    rw [← h.absorbed] at this
    dsimp only at this
    omega
  obtain ⟨max, hmax⟩ : ∃ max, 64 - s.buffer.length = max := ⟨_, rfl⟩
  have hupdate : Sha1.update s bytes = updateLoop { s with buffer := s.buffer ++ bytes.take max }
      ⟨bytes.drop max, decide (max ≤ bytes.length)⟩ := by
    rw [Sha1.update, read, if_pos rfl, hmax]
  have hspec := updateLoop_spec { s with buffer := s.buffer ++ bytes.take max }
    ⟨bytes.drop max, decide (max ≤ bytes.length)⟩ (by
      intro hmore
      have := of_decide_eq_true hmore
      simp only [List.length_append, List.length_take]
      omega) (by
      intro hless
      have := of_decide_eq_false hless
      refine ⟨?_, List.drop_eq_nil_of_le (by omega)⟩
      simp only [List.length_append, List.length_take]
      omega)
  rw [← hupdate, List.append_assoc, List.take_append_drop] at hspec
  constructor
  · rw [Fips180.absorb_append, ← h.absorbed]
    exact hspec.1
  · refine hspec.2.trans ?_
    rw [List.length_append, List.length_append, UInt64.ofNat_add, UInt64.ofNat_add, ← UInt64.add_assoc,
      h.counted]

/-! ## The last blocks -/

theorem blockWord_append {P bytes : List UInt8} {i : Nat} (h : 4 * i + 4 ≤ P.length) :
    Fips180.blockWord (P ++ bytes) i = Fips180.blockWord P i := by
  have hdrop : 4 * i ≤ P.length := by omega
  rw [Fips180.blockWord, Fips180.blockWord, List.drop_append_of_le_length hdrop,
    List.take_append_of_le_length (by rw [List.length_drop]; omega)]

theorem blockWord_zeros {n i : Nat} (h : 4 * i + 4 ≤ n) :
    Fips180.blockWord (List.replicate n 0) i = 0 := by
  have hfour : ((List.replicate n (0 : UInt8)).drop (4 * i)).take 4 = [0, 0, 0, 0] := by
    rw [List.drop_replicate, List.take_replicate, Nat.min_eq_left (by omega)]
    rfl
  rw [Fips180.blockWord, hfour]
  rfl

/-- The upper and the lower word of a length. -/
theorem bytes_eight (n : Nat) : Endian.Order.big.bytes 8 n
    = Endian.Order.big.bytes 4 (n / 2 ^ 32) ++ Endian.Order.big.bytes 4 n := by
  have hdiv : n / 256 / 256 / 256 / 256 = n / 2 ^ 32 := by omega
  simp [Endian.Order.bytes, Endian.leBytes, hdiv]

/-- The length of the message stands in the last two words of its last block. -/
theorem transform_last (s : Sha1) {block : List UInt32} {P : List UInt8} (hP : P.length = 56)
    (hlength : block.length = 16) (hblock : ∀ i < 14, block.getD i 0 = Fips180.blockWord P i) (n : Nat) :
    (transform s ((block.set 15 (UInt64.ofNat n).toUInt32).set 14 (UInt64.ofNat n >>> 32).toUInt32)).1.digest
      = Fips180.compress s.digest (P ++ Endian.Order.big.bytes 8 n) := by
  have hword : ∀ x, Endian.Order.big.value (Endian.Order.big.bytes 4 x) = x % 2 ^ 32 := fun x =>
    Endian.Order.value_bytes .big 4 x
  have hupper : Fips180.blockWord (P ++ Endian.Order.big.bytes 8 n) 14 = (UInt64.ofNat n >>> 32).toUInt32 := by
    have hfour : ((P ++ Endian.Order.big.bytes 8 n).drop (4 * 14)).take 4
        = Endian.Order.big.bytes 4 (n / 2 ^ 32) := by
      rw [List.drop_left' (by rw [hP]), bytes_eight, List.take_left' (Endian.Order.length_bytes .big 4 _)]
    apply UInt32.toNat_inj.mp
    rw [Fips180.blockWord, hfour, hword, UInt32.toNat_ofNat', UInt64.toNat_toUInt32,
      UInt64.toNat_shiftRight, UInt64.toNat_ofNat', Nat.shiftRight_eq_div_pow]
    change n / 2 ^ 32 % 2 ^ 32 % 2 ^ 32 = n % 2 ^ 64 / 2 ^ 32 % 2 ^ 32
    omega
  have hlower : Fips180.blockWord (P ++ Endian.Order.big.bytes 8 n) 15 = (UInt64.ofNat n).toUInt32 := by
    have hfour : ((P ++ Endian.Order.big.bytes 8 n).drop (4 * 15)).take 4 = Endian.Order.big.bytes 4 n := by
      have hsplit : P ++ Endian.Order.big.bytes 8 n
          = (P ++ Endian.Order.big.bytes 4 (n / 2 ^ 32)) ++ Endian.Order.big.bytes 4 n := by
        rw [bytes_eight, List.append_assoc]
      rw [hsplit, List.drop_left' (by simp [hP]), List.take_of_length_le (by simp)]
    apply UInt32.toNat_inj.mp
    rw [Fips180.blockWord, hfour, hword, UInt32.toNat_ofNat', UInt64.toNat_toUInt32, UInt64.toNat_ofNat']
    omega
  refine congrArg Sha1.digest (@transform_eq s _ (P ++ Endian.Order.big.bytes 8 n) ?_ ?_).1
  · simp [hlength]
  · intro i hi
    rw [List.getD_eq_getElem?_getD, List.getElem?_set, List.getElem?_set]
    simp only [List.length_set, hlength]
    by_cases h14 : 14 = i
    · subst h14
      rw [hupper]
      rfl
    · by_cases h15 : 15 = i
      · subst h15
        rw [hlower]
        rfl
      · rw [if_neg h14, if_neg h15, ← List.getD_eq_getElem?_getD, hblock i (by omega),
          blockWord_append (by omega)]

/-- The hash of what was taken and its padding. -/
theorem finish_digest {s : Sha1} {m : List UInt8} (h : Represents s m) :
    (finish s).digest = Fips180.hash m := by
  have hlength : s.buffer.length = m.length % 64 := by
    have hrest := Fips180.length_absorb Fips180.initial m
    rw [← h.absorbed] at hrest
    exact hrest
  have hbits : (s.transforms * 64 + UInt64.ofNat s.buffer.length) * 8 = UInt64.ofNat (8 * m.length) := by
    rw [h.counted, Nat.mul_comm, UInt64.ofNat_mul]
    rfl
  have hhash : Fips180.hash m = (Fips180.absorb s.digest (s.buffer ++ Fips180.pad m.length)).1 := by
    rw [Fips180.hash, Fips180.absorb_append, ← h.absorbed]
  have horig : (s.buffer ++ [0x80]).length = s.buffer.length + 1 := by simp
  have hsize : (s.buffer.length + 1) % 2 ^ 32 = s.buffer.length + 1 := by omega
  rw [hhash, finish]
  simp only [hsize, horig, hbits, Nat.reduceSub]
  by_cases hfits : s.buffer.length + 1 ≤ 56
  · -- the padding and the length fit into the block
    let P := s.buffer ++ 0x80 :: List.replicate (55 - s.buffer.length) 0
    have hP : P.length = 56 := by
      simp only [P, List.length_append, List.length_cons, List.length_replicate]
      omega
    have hpad : s.buffer ++ Fips180.pad m.length = P ++ Endian.Order.big.bytes 8 (8 * m.length) := by
      have hzeros : (119 - m.length % 64) % 64 = 55 - s.buffer.length := by omega
      simp [Fips180.pad, P, hzeros]
    have hfilled : s.buffer ++ [0x80] ++ List.replicate (64 - (s.buffer.length + 1)) 0
        = P ++ List.replicate 8 0 := by
      have hzeros : 64 - (s.buffer.length + 1) = (55 - s.buffer.length) + 8 := by omega
      rw [hzeros, List.replicate_add]
      simp [P]
    rw [if_neg (by omega), hfilled, hpad]
    have hwords : ∀ i < 14, (bufferToBlock (P ++ List.replicate 8 0)).getD i 0 = Fips180.blockWord P i := by
      intro i hi
      have hin : 4 * i + 4 ≤ (P ++ List.replicate 8 0).length := by
        simp only [List.length_append, hP]
        omega
      rw [bufferToBlock_getD (by omega) hin, blockWord_append (by omega)]
    have hlast := transform_last s hP (length_bufferToBlock _) hwords (8 * m.length)
    rw [Fips180.absorb_single _ (by simp [hP])]
    simpa only using hlast
  · -- the length needs a block of its own
    let B := s.buffer ++ 0x80 :: List.replicate (63 - s.buffer.length) 0
    let P : List UInt8 := List.replicate 56 0
    have hB : B.length = 64 := by
      simp only [B, List.length_append, List.length_cons, List.length_replicate]
      omega
    have hpad : s.buffer ++ Fips180.pad m.length = B ++ (P ++ Endian.Order.big.bytes 8 (8 * m.length)) := by
      have hzeros : (119 - m.length % 64) % 64 = (63 - s.buffer.length) + 56 := by omega
      simp only [Fips180.pad, B, P, hzeros, List.replicate_add]
      simp
    have hfilled : s.buffer ++ [0x80] ++ List.replicate (64 - (s.buffer.length + 1)) 0 = B := by
      have hzeros : 64 - (s.buffer.length + 1) = 63 - s.buffer.length := by omega
      simp [B, hzeros]
    obtain ⟨hfirst, hwords⟩ := transform_eq s (length_bufferToBlock B) fun i hi =>
      @bufferToBlock_getD B i hi (by omega)
    rw [if_pos (by omega), hfilled, hpad, Fips180.absorb_block _ hB]
    dsimp only
    rw [hfirst, Counter.foldl_set (fun _ => 0) 14 _ (by omega)]
    obtain ⟨block, hblock⟩ : ∃ block, (List.range 14).map (fun _ => (0 : UInt32)) ++
      (transform s (bufferToBlock B)).2.drop 14 = block := ⟨_, rfl⟩
    have hzero : ∀ i < 14, block.getD i 0 = Fips180.blockWord P i := by
      intro i hi
      rw [blockWord_zeros (by omega), ← hblock, List.getD_eq_getElem?_getD,
        List.getElem?_append_left (by simpa using hi), List.getElem?_map, List.getElem?_range hi]
      rfl
    have hlast := transform_last ⟨Fips180.compress s.digest B, s.buffer, s.transforms + 1⟩
      (by simp [P] : P.length = 56) (by simp [← hblock, hwords] : block.length = 16) hzero (8 * m.length)
    rw [hblock, Fips180.absorb_single _ (by simp [P])]
    exact hlast

/-! ## The digits -/

/-- The two digits of a byte. -/
def hexByte (b : UInt8) : List Char := [Nat.digitChar (b.toNat / 16), Nat.digitChar (b.toNat % 16)]

/-- All digits of a number of `w` digits. -/
def digits : Nat → Nat → List Char
  | 0, _ => []
  | w + 1, n => digits w (n / 16) ++ [Nat.digitChar (n % 16)]

theorem leftpad_append (w : Nat) (c d : Char) (ds : List Char) :
    List.leftpad (w + 1) c (ds ++ [d]) = List.leftpad w c ds ++ [d] := by
  have hlength : w + 1 - (ds ++ [d]).length = w - ds.length := by simp
  rw [List.leftpad, List.leftpad, hlength, List.append_assoc]

theorem digits_zero (w : Nat) : digits w 0 = List.replicate w '0' := by
  induction w with
  | zero => rfl
  | succ w ih =>
    rw [digits, Nat.zero_div, ih, List.replicate_succ']
    rfl

/-- A number with its leading zeros. -/
theorem leftpad_toDigits {w n : Nat} (hn : n < 16 ^ (w + 1)) :
    List.leftpad (w + 1) '0' (Nat.toDigits 16 n) = digits (w + 1) n := by
  induction w generalizing n with
  | zero =>
    have hlt : n < 16 := by simpa using hn
    rw [Nat.toDigits_of_lt_base hlt, digits, digits, Nat.mod_eq_of_lt hlt]
    rfl
  | succ w ih =>
    by_cases hlt : n < 16
    · rw [Nat.toDigits_of_lt_base hlt, digits, Nat.div_eq_of_lt hlt, Nat.mod_eq_of_lt hlt, digits_zero]
      rfl
    · have hdiv : n / 16 < 16 ^ (w + 1) := by
        rw [pow_succ] at hn
        omega
      rw [Nat.toDigits_of_base_le (by decide) (by omega), leftpad_append, ih hdiv]
      rfl

/-- Two digits for every byte. -/
theorem digits_bytes (w n : Nat) :
    digits (2 * w) n = (Endian.Order.big.bytes w n).flatMap hexByte := by
  induction w generalizing n with
  | zero => rfl
  | succ w ih =>
    have hbytes : Endian.Order.big.bytes (w + 1) n = Endian.Order.big.bytes w (n / 256) ++ [UInt8.ofNat n] := by
      simp [Endian.Order.bytes, Endian.leBytes]
    have hdiv : n / 16 / 16 = n / 256 := by omega
    have hupper : n / 16 % 16 = n % 256 / 16 := by omega
    have hlower : n % 16 = n % 256 % 16 := by omega
    have hdouble : 2 * (w + 1) = 2 * w + 1 + 1 := by omega
    rw [hbytes, List.flatMap_append, ← ih, hdouble, digits, digits, hdiv, hupper, hlower, List.append_assoc]
    simp [hexByte]

theorem putHex_eq (x : UInt32) : putHex x = (Endian.Order.big.bytes 4 x.toNat).flatMap hexByte := by
  have hlt : x.toNat < 16 ^ (7 + 1) := x.toNat_lt
  exact (leftpad_toDigits hlt).trans (digits_bytes 4 x.toNat)

/-- However a message is cut into pieces, `final` prints its digest, and the object is as at the
beginning. -/
theorem final_updates (chunks : List (List UInt8)) :
    final (chunks.foldl update reset) = ((Fips180.digest chunks.flatten).flatMap hexByte, reset) := by
  have hrun : ∀ (chunks : List (List UInt8)) (s : Sha1) (m : List UInt8), Represents s m →
      Represents (chunks.foldl update s) (m ++ chunks.flatten) := by
    intro chunks
    induction chunks with
    | nil =>
      intro s m h
      simpa using h
    | cons bytes chunks ih =>
      intro s m h
      have hrest := ih _ _ (h.update bytes)
      rwa [List.append_assoc] at hrest
  have hdigest := finish_digest (hrun chunks reset [] .reset)
  rw [List.nil_append] at hdigest
  have hall : ∀ x : UInt32, x &&& 0xffffffff = x := fun x => UInt32.and_neg_one
  rw [final, Fips180.digest]
  simp only [hdigest, hall, putHex_eq, List.flatMap_assoc]

end Sha1

end Nodeoze.Crypto
