import Nodeoze.Lib.Posix

/-!
# Output stream buffers

`obstreambuf` is the part of the output buffers that does not depend on where the bytes go: the
window of memory between `pbase` and `pend`, the position `pnext` in it, the high watermark, and
the flags `dirty` and `writable`.  The pointers are offsets from `pbase`.  What is behind the
window is a device `δ`, and the virtual functions of the derived classes are its `Sink` and
`Virtuals` instances.

Asserts are compiled out, as in the release build.
-/

namespace Nodeoze.Bstream

/-- How a call on an output buffer can end without a value: with `std::errc::invalid_argument`, with
the error of a system call, in behaviour the language leaves undefined, in a loop that makes no
progress, or, on a window of fixed size, with `std::errc::no_buffer_space`. -/
inductive Failure
  | invalidArgument
  | errno (e : Posix.Errno)
  | undefined
  | loops
  | noBufferSpace
  deriving DecidableEq, Repr

@[simp] theorem ok_bind {α β : Type} (a : α) (f : α → Except Failure β) :
    (Except.ok a >>= f) = f a := rfl

inductive SeekAnchor
  | current
  | end_
  | begin
  deriving DecidableEq, Repr

structure Obstreambuf (δ : Type) where
  pbaseOffset : Nat
  highWatermark : Nat
  lastTouched : Nat
  pnext : Nat
  pend : Nat
  dirtyStart : Nat
  dirty : Bool
  writable : Bool
  dev : δ

/-- The memory of the window, and `really_flush`. -/
class Sink (δ : Type) where
  store : Obstreambuf δ → Nat → List UInt8 → Except Failure (Obstreambuf δ)
  reallyFlush : Obstreambuf δ → Except Failure (Obstreambuf δ)

namespace Obstreambuf

variable {δ : Type}

/-- `obstreambuf()`: the derived class sets the window. -/
def init (dev : δ) : Obstreambuf δ := ⟨0, 0, 0, 0, 0, 0, false, true, dev⟩

def ppos (s : Obstreambuf δ) : Nat := s.pbaseOffset + s.pnext

def setHighWatermark (s : Obstreambuf δ) : Obstreambuf δ :=
  if s.dirty ∧ s.highWatermark < s.ppos then { s with highWatermark := s.ppos } else s

theorem setHighWatermark_exists (s : Obstreambuf δ) :
    ∃ n, s.setHighWatermark = { s with highWatermark := n } := by
  unfold setHighWatermark
  split_ifs
  · exact ⟨_, rfl⟩
  · exact ⟨s.highWatermark, rfl⟩

theorem setHighWatermark_of_dirty {s : Obstreambuf δ} (h : s.dirty = true) :
    s.setHighWatermark = { s with highWatermark := max s.highWatermark s.ppos } := by
  unfold setHighWatermark
  by_cases hlt : s.highWatermark < s.ppos
  · rw [if_pos ⟨h, hlt⟩, max_eq_right hlt.le]
  · rw [if_neg fun hc => hlt hc.2, max_eq_left (Nat.le_of_not_lt hlt)]

section Flush

variable [Sink δ]

def flush (s : Obstreambuf δ) : Except Failure (Obstreambuf δ) :=
  if s.dirty then do
    let s ← Sink.reallyFlush s
    let s := s.setHighWatermark
    pure { s with lastTouched := s.ppos, dirty := false }
  else pure s

end Flush

end Obstreambuf

open Obstreambuf in
/-- The other virtual functions that the writing functions call. -/
class Virtuals (δ : Type) extends Sink δ where
  reallyMakeWritable : Obstreambuf δ → Except Failure (Obstreambuf δ)
  reallyTouch : Obstreambuf δ → Except Failure (Obstreambuf δ)
  reallyOverflow : Obstreambuf δ → Nat → Except Failure (Obstreambuf δ)

namespace Obstreambuf

variable {δ : Type} [Virtuals δ]

def makeWritable (s : Obstreambuf δ) : Except Failure (Obstreambuf δ) :=
  if s.writable then pure s
  else do
    let s ← Virtuals.reallyMakeWritable s
    pure { s with writable := true }

def touch (s : Obstreambuf δ) : Except Failure (Obstreambuf δ) :=
  if s.lastTouched ≠ s.ppos then Virtuals.reallyTouch s else pure s

def overflow (s : Obstreambuf δ) (requested : Nat) : Except Failure (Obstreambuf δ) := do
  let s ← s.flush
  Virtuals.reallyOverflow s requested

/-- Store bytes at `pnext` and move on. -/
def place (s : Obstreambuf δ) (src : List UInt8) : Except Failure (Obstreambuf δ) := do
  let s := if s.dirty then s else { s with dirtyStart := s.pnext }
  let s ← Sink.store s s.pnext src
  pure { s with pnext := s.pnext + src.length, dirty := true }

/-- What every write does first. -/
def prepare (s : Obstreambuf δ) : Except Failure (Obstreambuf δ) := do
  let s ← s.makeWritable
  if s.dirty then pure s else s.touch

def put (s : Obstreambuf δ) (byte : UInt8) : Except Failure (Obstreambuf δ) := do
  let s ← s.prepare
  let s ← if s.pend ≤ s.pnext then s.overflow 1 else pure s
  s.place [byte]

/-- The loop of `putn` for bytes that do not fit the window in one go; a round that has no room
would go on forever. -/
def putChunks : Nat → Obstreambuf δ → List UInt8 → Except Failure (Obstreambuf δ)
  | _, s, [] => pure s
  | 0, _, _ :: _ => throw .loops
  | rounds + 1, s, b :: src => do
    let s ← if s.pend ≤ s.pnext then s.overflow (b :: src).length else pure s
    let chunkSize := min (b :: src).length (s.pend - s.pnext)
    let s ← s.place ((b :: src).take chunkSize)
    putChunks rounds s ((b :: src).drop chunkSize)

def putn (s : Obstreambuf δ) (src : List UInt8) : Except Failure (Obstreambuf δ) := do
  let s ← s.prepare
  if src.length ≤ s.pend - s.pnext then s.place src
  else do
    let s ← s.overflow src.length
    if src.length ≤ s.pend - s.pnext then s.place src else putChunks src.length s src

def filln (s : Obstreambuf δ) (byte : UInt8) (n : Nat) : Except Failure (Obstreambuf δ) :=
  s.putn (List.replicate n byte)

/-- The position that a seek asks for. -/
def target (s : Obstreambuf δ) (where_ : SeekAnchor) (offset : Int) : Int :=
  match where_ with
  | .current => s.ppos + offset
  | .end_ => s.highWatermark + offset
  | .begin => offset

/-- The writing functions append to what the buffer stands for: `P s c` says that `s` stands for the
bytes `c`, the virtual functions keep it, and there is room after an overflow.  Whether nothing at
all can be placed may depend on `E`. -/
structure Appends (A : Failure → Prop) (E : Prop) (P : Obstreambuf δ → List UInt8 → Prop) : Prop where
  prepare : ∀ {s c}, P s c → Posix.Ends A s.prepare fun s' => P s' c
  overflow : ∀ {s c} (n : Nat), P s c →
    Posix.Ends A (s.overflow n) fun s' => P s' c ∧ s'.pnext < s'.pend
  place : ∀ {s c src}, P s c → src.length ≤ s.pend - s.pnext → (src = [] → E) →
    Posix.Ends A (s.place src) fun s' => P s' (c ++ src)

namespace Appends

open Posix

variable {A : Failure → Prop} {E : Prop} {P : Obstreambuf δ → List UInt8 → Prop}
  {s : Obstreambuf δ} {c : List UInt8}

/-- What follows a check for room finds room for at least one byte. -/
theorem roomFor (h : Appends A E P) (hs : P s c) {n : Nat}
    {k : Obstreambuf δ → Except Failure (Obstreambuf δ)} {Q : Obstreambuf δ → Prop}
    (hk : ∀ s', P s' c → s'.pnext < s'.pend → Ends A (k s') Q) :
    Ends A (if s.pend ≤ s.pnext then s.overflow n >>= k else pure s >>= k) Q := by
  split_ifs with hfull
  · exact (h.overflow n hs).bind fun s' hs' => hk s' hs'.1 hs'.2
  · exact hk s hs (by omega)

theorem put (h : Appends A E P) (hs : Ends A s.prepare fun s' => P s' c) (b : UInt8) :
    Ends A (s.put b) fun s' => P s' (c ++ [b]) := by
  refine hs.bind ?_
  intro s₁ hs₁
  refine h.roomFor hs₁ ?_
  intro s₂ hs₂ hroom
  exact h.place hs₂ (by rw [List.length_singleton]; omega) fun hnil => nomatch hnil

theorem putChunks (h : Appends A E P) {rounds : Nat} {src : List UInt8}
    (hrounds : src.length ≤ rounds) :
    ∀ {s c}, P s c → Ends A (Obstreambuf.putChunks rounds s src) fun s' => P s' (c ++ src) := by
  induction rounds generalizing src with
  | zero =>
    intro s c hs
    obtain rfl : src = [] := List.length_eq_zero_iff.mp (Nat.le_zero.mp hrounds)
    rw [List.append_nil]
    exact .ok hs
  | succ rounds ih =>
    intro s c hs
    obtain _ | ⟨b, src⟩ := src
    · rw [List.append_nil]
      exact .ok hs
    · rw [Obstreambuf.putChunks]
      refine h.roomFor hs ?_
      intro s₁ hs₁ hroom
      have hpos : 0 < (b :: src).length := Nat.succ_pos _
      have hsome : (b :: src).take (min (b :: src).length (s₁.pend - s₁.pnext)) ≠ [] := by
        intro hnil
        have hlen := congrArg List.length hnil
        rw [List.length_take, List.length_nil] at hlen
        omega
      refine (h.place hs₁ (by rw [List.length_take]; omega) fun hnil => absurd hnil hsome).bind ?_
      intro s₂ hs₂
      refine (ih (by rw [List.length_drop]; omega) hs₂).imp ?_
      intro s₃ hs₃
      rwa [List.append_assoc, List.take_append_drop] at hs₃

theorem putn (h : Appends A E P) (hs : Ends A s.prepare fun s' => P s' c) {src : List UInt8}
    (hsrc : src = [] → E) :
    Ends A (s.putn src) fun s' => P s' (c ++ src) := by
  refine hs.bind ?_
  intro s₁ hs₁
  split_ifs with hroom
  · exact h.place hs₁ hroom hsrc
  · refine (h.overflow src.length hs₁).bind ?_
    rintro s₂ ⟨hs₂, -⟩
    split_ifs with hroom₂
    · exact h.place hs₂ hroom₂ hsrc
    · exact h.putChunks le_rfl hs₂

end Appends

/-- `really_tell` of the base class. -/
def tell (s : Obstreambuf δ) : SeekAnchor → Nat × Obstreambuf δ
  | .current => (s.ppos, s)
  | .end_ =>
    let s := if s.dirty then s.setHighWatermark else s
    (s.highWatermark, s)
  | .begin => (0, s)

omit [Virtuals δ] in
theorem tell_end_fst (s : Obstreambuf δ) :
    (s.tell .end_).1 = if s.dirty then max s.highWatermark s.ppos else s.highWatermark := by
  rw [tell]
  by_cases h : s.dirty = true
  · rw [if_pos h, if_pos h, setHighWatermark_of_dirty h]
  · rw [if_neg h, if_neg h]

omit [Virtuals δ] in
/-- `tell` may raise the high watermark. -/
theorem tell_snd (s : Obstreambuf δ) (where_ : SeekAnchor) :
    (s.tell where_).2 = s ∨
      s.dirty = true ∧ (s.tell where_).2 = { s with highWatermark := max s.highWatermark s.ppos } := by
  cases where_ with
  | current => exact .inl rfl
  | begin => exact .inl rfl
  | end_ =>
    rw [tell]
    by_cases h : s.dirty = true
    · rw [if_pos h, setHighWatermark_of_dirty h]
      exact .inr ⟨h, rfl⟩
    · rw [if_neg h]
      exact .inl rfl

end Obstreambuf

end Nodeoze.Bstream
