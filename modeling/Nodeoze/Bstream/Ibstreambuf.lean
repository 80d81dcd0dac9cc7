import Mathlib.Algebra.Order.Ring.Int
import Nodeoze.Bstream.Obstreambuf

/-!
# Input stream buffers

`ibstreambuf` reads from a window of memory between `gbase` and `gend`; `gnext` is the next byte and
`gbase_offset` the position of `gbase` in what is read.  The pointers are offsets from `gbase`, and
need not be in the window.  What is behind the window is a device `δ`.

`Delivers` is the contract of a device: what is ahead of `gnext` in the window is what comes next,
and an underflow brings more of it unless nothing is left.  With it the reading functions are those
of a `Cursor`.
-/

namespace Nodeoze.Bstream

open Posix

/-- The errors that the reading functions report. -/
inductive ReadError
  | readPastEndOfStream
  | invalidSeek
  deriving DecidableEq, Repr

structure Ibstreambuf (δ : Type) where
  gbaseOffset : Int
  gnext : Int
  gend : Int
  dev : δ

/-- The memory of the window, and `really_underflow`. -/
class Source (δ : Type) where
  load : δ → Int → Nat → Option (List UInt8)
  reallyUnderflow : Ibstreambuf δ → Except Failure (Nat × Ibstreambuf δ)

namespace Ibstreambuf

variable {δ : Type}

def gpos (s : Ibstreambuf δ) : Int := s.gbaseOffset + s.gnext

def gbump (s : Ibstreambuf δ) (offset : Int) : Ibstreambuf δ := { s with gnext := s.gnext + offset }

/-- `gend() - gnext()` as a `size_type`. -/
def available (s : Ibstreambuf δ) : Nat := ((s.gend - s.gnext) % 2 ^ 64).toNat

/-- The position that a seek asks for. -/
def target (s : Ibstreambuf δ) (where_ : SeekAnchor) (offset : Int) : Int :=
  match where_ with
  | .current => s.gpos + offset
  | .end_ => s.gend + offset
  | .begin => offset

/-- `really_seek` of the base class. -/
def seek (s : Ibstreambuf δ) (where_ : SeekAnchor) (offset : Int) : Option Int × Ibstreambuf δ :=
  let result := s.target where_ offset
  if result < 0 ∨ result > s.gend then (none, s) else (some result, { s with gnext := result })

/-- `really_tell` of the base class. -/
def tell (s : Ibstreambuf δ) : SeekAnchor → Int
  | .current => s.gpos
  | .end_ => s.gend
  | .begin => 0

section Reading

variable [Source δ]

/-- Look at `n` bytes from `gnext` on. -/
def fetch (s : Ibstreambuf δ) (n : Nat) : Except Failure (List UInt8) :=
  match Source.load s.dev s.gnext n with
  | some bs => pure bs
  | none => throw .undefined

/-- What `get` and `peek` do first: whether there is a byte. -/
def arrive (s : Ibstreambuf δ) : Except Failure (Bool × Ibstreambuf δ) :=
  if s.gnext ≥ s.gend then do
    let (available, s) ← Source.reallyUnderflow s
    pure (1 ≤ available, s)
  else pure (true, s)

def get (s : Ibstreambuf δ) : Except Failure (Except ReadError UInt8 × Ibstreambuf δ) := do
  let (some_, s) ← s.arrive
  if some_ then
    let bs ← s.fetch 1
    pure (.ok (bs.headD 0), s.gbump 1)
  else pure (.error .readPastEndOfStream, s)

def peek (s : Ibstreambuf δ) : Except Failure (Except ReadError UInt8 × Ibstreambuf δ) := do
  let (some_, s) ← s.arrive
  if some_ then
    let bs ← s.fetch 1
    pure (.ok (bs.headD 0), s)
  else pure (.error .readPastEndOfStream, s)

/-- What a round of `getn` does first. -/
def refill (s : Ibstreambuf δ) : Except Failure (Ibstreambuf δ) :=
  if s.available < 1 then do
    let (_, s) ← Source.reallyUnderflow s
    pure s
  else pure s

/-- The loop of `getn`; a round that copies nothing would go on forever. -/
def getChunks : Nat → Ibstreambuf δ → Nat → List UInt8 → Except Failure (List UInt8 × Ibstreambuf δ)
  | _, s, 0, dst => pure (dst, s)
  | 0, _, _ + 1, _ => throw .loops
  | rounds + 1, s, remaining + 1, dst => do
    let s ← s.refill
    if s.available < 1 then pure (dst, s)
    else
      let chunkSize := min (remaining + 1) s.available
      let bs ← s.fetch chunkSize
      getChunks rounds (s.gbump chunkSize) (remaining + 1 - chunkSize) (dst ++ bs)

/-- `getn( dst, n )`: the bytes copied, whose number is the value of the call. -/
def getn (s : Ibstreambuf δ) (n : Nat) : Except Failure (List UInt8 × Ibstreambuf δ) :=
  getChunks n s n []

end Reading

end Ibstreambuf

/-! ### A cursor -/

/-- Bytes and the position of the next one. -/
structure Cursor where
  bytes : List UInt8
  pos : Nat
  deriving DecidableEq, Repr

inductive Reply
  | byte (b : UInt8)
  | bytes (bs : List UInt8)
  | position (p : Int)
  | failed (e : ReadError)
  deriving DecidableEq, Repr

namespace Cursor

/-- The position `n` bytes further on, or at the end. -/
def advance (c : Cursor) (n : Nat) : Cursor := { c with pos := min (c.pos + n) c.bytes.length }

/-- The next byte, if there is one. -/
def ahead (c : Cursor) : Except ReadError UInt8 :=
  match c.bytes[c.pos]? with
  | some b => .ok b
  | none => .error .readPastEndOfStream

/-- The next `n` bytes, or as many as there are. -/
def range (c : Cursor) (n : Nat) : List UInt8 := (c.bytes.drop c.pos).take n

def tell (c : Cursor) : SeekAnchor → Int
  | .current => c.pos
  | .end_ => c.bytes.length
  | .begin => 0

def seek (c : Cursor) (where_ : SeekAnchor) (offset : Int) : Option Int × Cursor :=
  let result := c.tell where_ + offset
  if result < 0 ∨ result > c.bytes.length then (none, c) else (some result, { c with pos := result.toNat })

end Cursor

/-! ### Devices that deliver -/

namespace Ibstreambuf

variable {δ : Type} [Source δ]

/-- `P s c`: the buffer `s` reads what is ahead of the cursor `c`. -/
structure Delivers (P : Ibstreambuf δ → Cursor → Prop) : Prop where
  inside : ∀ {s c}, P s c → s.gnext ≤ s.gend ∧ s.gend - s.gnext < 2 ^ 64
  ahead : ∀ {s c} {n : Nat}, P s c → n ≤ s.gend - s.gnext →
    Source.load s.dev s.gnext n = some (c.range n) ∧ c.pos + n ≤ c.bytes.length
  bump : ∀ {s c} {n : Nat}, P s c → n ≤ s.gend - s.gnext → P (s.gbump n) { c with pos := c.pos + n }
  underflow : ∀ {s c}, P s c → s.gnext = s.gend →
    ∃ s', Source.reallyUnderflow s = .ok (s'.available, s') ∧ P s' c ∧
      (s'.available = 0 → c.pos = c.bytes.length)

namespace Delivers

variable {P : Ibstreambuf δ → Cursor → Prop} {s : Ibstreambuf δ} {c : Cursor}

theorem available_eq (h : Delivers P) (hs : P s c) : (s.available : Int) = s.gend - s.gnext := by
  obtain ⟨hle, hlt⟩ := h.inside hs
  unfold available
  omega

theorem pos_le (h : Delivers P) (hs : P s c) : c.pos ≤ c.bytes.length := by
  obtain ⟨hle, -⟩ := h.inside hs
  have hzero := (h.ahead hs (n := 0) (by omega)).2
  omega

theorem fetch (h : Delivers P) (hs : P s c) {n : Nat} (hn : n ≤ s.available) :
    s.fetch n = .ok (c.range n) := by
  have havail := h.available_eq hs
  rw [Ibstreambuf.fetch, (h.ahead hs (by omega)).1]
  rfl

theorem arrive (h : Delivers P) (hs : P s c) :
    ∃ s', s.arrive = .ok (decide (c.pos < c.bytes.length), s') ∧ P s' c ∧
      (c.pos < c.bytes.length → 1 ≤ s'.available) := by
  have hle := h.pos_le hs
  unfold Ibstreambuf.arrive
  by_cases hfull : s.gnext ≥ s.gend
  · obtain ⟨s', hs', hP, hempty⟩ := h.underflow hs (le_antisymm (h.inside hs).1 hfull)
    have hahead := (h.ahead hP (n := s'.available) (h.available_eq hP).le).2
    have hiff : 1 ≤ s'.available ↔ c.pos < c.bytes.length := by
      constructor
      · intro hone
        omega
      · intro hlt
        by_contra hnone
        exact absurd (hempty (by omega)) (by omega)
    refine ⟨s', ?_, hP, hiff.mpr⟩
    rw [if_pos hfull, hs']
    show Except.ok (decide (1 ≤ s'.available), s') = _
    rw [decide_eq_decide.mpr hiff]
  · have havail := h.available_eq hs
    have hahead := (h.ahead hs (n := s.available) havail.le).2
    refine ⟨s, ?_, hs, fun _ => by omega⟩
    rw [if_neg hfull]
    show Except.ok (true, s) = _
    rw [decide_eq_true (by omega)]

theorem head_range (hlt : c.pos < c.bytes.length) : c.ahead = .ok ((c.range 1).headD 0) := by
  unfold Cursor.ahead Cursor.range
  rw [List.getElem?_eq_getElem hlt, List.drop_eq_getElem_cons hlt]
  rfl

theorem ahead_end (hend : ¬c.pos < c.bytes.length) : c.ahead = .error .readPastEndOfStream := by
  unfold Cursor.ahead
  rw [List.getElem?_eq_none (by omega)]

theorem advance_of_le {n : Nat} (hn : c.pos + n ≤ c.bytes.length) :
    c.advance n = { c with pos := c.pos + n } := by
  rw [Cursor.advance, min_eq_left hn]

theorem advance_end (hend : c.pos = c.bytes.length) (n : Nat) : c.advance n = c := by
  have hmin : min (c.pos + n) c.bytes.length = c.pos := by omega
  rw [Cursor.advance, hmin]

theorem get (h : Delivers P) (hs : P s c) : ∃ s', s.get = .ok (c.ahead, s') ∧ P s' (c.advance 1) := by
  obtain ⟨s₁, harrive, h₁, hone⟩ := h.arrive hs
  have hle := h.pos_le hs
  rw [Ibstreambuf.get, harrive, ok_bind]
  by_cases hlt : c.pos < c.bytes.length
  · have hfetch := h.fetch h₁ (hone hlt)
    have hbump := h.bump h₁ (n := 1) (by
      have := h.available_eq h₁
      have := hone hlt
      omega)
    refine ⟨s₁.gbump 1, ?_, ?_⟩
    · rw [decide_eq_true hlt, head_range hlt]
      simp only [if_true, hfetch, ok_bind]
      rfl
    · rw [advance_of_le (by omega)]
      exact hbump
  · refine ⟨s₁, ?_, ?_⟩
    · rw [decide_eq_false hlt, ahead_end hlt]
      rfl
    · rw [advance_end (by omega)]
      exact h₁

theorem peek (h : Delivers P) (hs : P s c) : ∃ s', s.peek = .ok (c.ahead, s') ∧ P s' c := by
  obtain ⟨s₁, harrive, h₁, hone⟩ := h.arrive hs
  refine ⟨s₁, ?_, h₁⟩
  rw [Ibstreambuf.peek, harrive, ok_bind]
  by_cases hlt : c.pos < c.bytes.length
  · rw [decide_eq_true hlt, head_range hlt]
    simp only [if_true, h.fetch h₁ (hone hlt), ok_bind]
    rfl
  · rw [decide_eq_false hlt, ahead_end hlt]
    rfl

/-- A round of `getn` finds bytes, unless none are left. -/
theorem refill (h : Delivers P) (hs : P s c) :
    ∃ s', s.refill = .ok s' ∧ P s' c ∧ (s'.available = 0 → c.pos = c.bytes.length) := by
  unfold Ibstreambuf.refill
  have havail := h.available_eq hs
  by_cases hnone : s.available < 1
  · obtain ⟨s', hs', hP, hempty⟩ := h.underflow hs (by omega)
    refine ⟨s', ?_, hP, hempty⟩
    rw [if_pos hnone, hs']
    rfl
  · refine ⟨s, ?_, hs, fun hzero => by omega⟩
    rw [if_neg hnone]
    rfl

theorem range_append {n k : Nat} (hk : k ≤ n) :
    c.range k ++ ({ c with pos := c.pos + k } : Cursor).range (n - k) = c.range n := by
  unfold Cursor.range
  obtain ⟨m, rfl⟩ := Nat.exists_eq_add_of_le hk
  rw [Nat.add_sub_cancel_left, ← List.drop_drop, List.take_add]

theorem advance_advance {n k : Nat} (hk : k ≤ n) :
    ({ c with pos := c.pos + k } : Cursor).advance (n - k) = c.advance n := by
  have hsum : c.pos + k + (n - k) = c.pos + n := by omega
  simp only [Cursor.advance, hsum]

theorem getChunks (h : Delivers P) {rounds n : Nat} (hrounds : n ≤ rounds) (dst : List UInt8)
    (hs : P s c) :
    ∃ s', Ibstreambuf.getChunks rounds s n dst = .ok (dst ++ c.range n, s') ∧ P s' (c.advance n) := by
  induction rounds generalizing n s c dst with
  | zero =>
    obtain rfl : n = 0 := by omega
    refine ⟨s, ?_, ?_⟩
    · simp [Ibstreambuf.getChunks, Cursor.range, pure, Except.pure]
    · rw [advance_of_le (h.pos_le hs)]
      exact hs
  | succ rounds ih =>
    obtain _ | n := n
    · refine ⟨s, ?_, ?_⟩
      · simp [Ibstreambuf.getChunks, Cursor.range, pure, Except.pure]
      · rw [advance_of_le (h.pos_le hs)]
        exact hs
    · obtain ⟨s₁, hready, h₁, hempty⟩ := h.refill hs
      rw [Ibstreambuf.getChunks, hready, ok_bind]
      by_cases hnone : s₁.available < 1
      · have hend := hempty (by omega)
        refine ⟨s₁, ?_, ?_⟩
        · rw [if_pos hnone, Cursor.range, hend, List.drop_length, List.take_nil, List.append_nil]
          rfl
        · rw [advance_end hend]
          exact h₁
      · -- a round copies what the window has, and the rest is up to the next rounds
        have havail := h.available_eq h₁
        have hchunk : min (n + 1) s₁.available ≤ n + 1 := min_le_left _ _
        have hbump := h.bump h₁ (n := min (n + 1) s₁.available) (by omega)
        have hrest : n + 1 - min (n + 1) s₁.available ≤ rounds := by omega
        obtain ⟨s', hs', hP⟩ :=
          ih hrest (dst ++ c.range (min (n + 1) s₁.available)) hbump
        rw [List.append_assoc, range_append hchunk] at hs'
        rw [advance_advance hchunk] at hP
        refine ⟨s', ?_, hP⟩
        rw [if_neg hnone]
        simp only [h.fetch h₁ (min_le_right _ _), ok_bind]
        exact hs'

theorem getn (h : Delivers P) (hs : P s c) (n : Nat) :
    ∃ s', s.getn n = .ok (c.range n, s') ∧ P s' (c.advance n) :=
  h.getChunks le_rfl [] hs

end Delivers

end Ibstreambuf

end Nodeoze.Bstream
