import Nodeoze.Lib.Partway
import Nodeoze.Bstream.Ibstreambuf

/-!
# Reading functions that fail partway

The reading functions of `ibstreambuf` with error codes and with their assertions: when an underflow
reports an error, the call ends and the buffer stays as it is.  The throwing overloads go the same
way; only `getn` differs, which without an error code does not say how many bytes it has copied.

`Supplies` is the contract of a device that may fail: as long as it does not, what is ahead of
`gnext` in the window is what comes next.
-/

namespace Nodeoze.Bstream

open Posix Partway

/-- How a reading call can end without a value: at the end of the stream, with the error of a system
call, in a failed assertion, in behaviour the language leaves undefined, or in a loop that makes no
progress. -/
inductive ReadFailure
  | pastEnd
  | errno (e : Errno)
  | invalidArgument
  | aborted
  | undefined
  | loops
  deriving DecidableEq, Repr

/-- A call on an input buffer that keeps what it has done when it fails. -/
abbrev Fetch (δ : Type) : Type → Type := EStateM ReadFailure (Ibstreambuf δ)

/-- The memory of the window, and `really_underflow` with its error code. -/
class Origin (δ : Type) where
  load : δ → Int → Nat → Option (List UInt8)
  reallyUnderflow : Fetch δ (Except Errno Nat)

namespace Fetch

/-- `assert` -/
def check {δ : Type} (c : Prop) [Decidable c] : Fetch δ Unit :=
  if c then pure () else throw .aborted

variable {δ : Type} [Origin δ]

/-- Look at `n` bytes from `gnext` on. -/
def look (n : Nat) : Fetch δ (List UInt8) := do
  let s ← get
  match Origin.load s.dev s.gnext n with
  | some bs => pure bs
  | none => throw .undefined

/-- The underflow of `get` and `peek`. -/
def demand : Fetch δ Unit := do
  match ← Origin.reallyUnderflow with
  | .error e => throw (.errno e)
  | .ok available => if available < 1 then throw .pastEnd else pure ()

/-- What `get` and `peek` do first. -/
def arrive : Fetch δ Unit := do
  let s ← get
  if s.gend ≤ s.gnext then do
    check (s.gnext = s.gend)
    demand
  else pure ()

/-- The byte at `gnext`. -/
def current : Fetch δ UInt8 := do
  let s ← get
  check (s.gnext < s.gend)
  let bs ← look 1
  pure (bs.headD 0)

protected def get : Fetch δ UInt8 := do
  arrive
  let b ← current
  modify fun s => s.gbump 1
  pure b

protected def peek : Fetch δ UInt8 := do
  arrive
  current

/-- What a round of `getn` does first: the error of the underflow, if there was one. -/
def replenish : Fetch δ (Option Errno) := do
  let s ← get
  if s.available < 1 then do
    match ← Origin.reallyUnderflow with
    | .error e => pure (some e)
    | .ok _ => pure none
  else pure none

/-- The loop of `getn`: the bytes in `dst`, and the error for which it was left. -/
def copy : Nat → Nat → List UInt8 → Fetch δ (List UInt8 × Option Errno)
  | _, 0, dst => pure (dst, none)
  | 0, _ + 1, _ => throw .loops
  | rounds + 1, remaining + 1, dst => do
    let error ← replenish
    if error.isSome then pure (dst, error)
    else do
      let s ← get
      if s.available < 1 then pure (dst, none)
      else do
        let chunkSize := min (remaining + 1) s.available
        let bs ← look chunkSize
        modify fun s => s.gbump chunkSize
        copy rounds (remaining + 1 - chunkSize) (dst ++ bs)

/-- `getn( dst, n, err )` -/
def getn (n : Nat) : Fetch δ (List UInt8 × Option Errno) := copy n n []

/-- `getn( dst, n )` -/
def getnThrowing (n : Nat) : Fetch δ (List UInt8) := do
  let (bs, error) ← getn n
  match error with
  | some e => throw (.errno e)
  | none => pure bs

end Fetch

/-- The cursor `n` bytes further on. -/
def Cursor.forward (c : Cursor) (n : Nat) : Cursor := { c with pos := c.pos + n }

/-! ### Devices that may fail -/

/-- `P s c`: the buffer `s` reads what is ahead of the cursor `c`.  `E e s c`: an underflow has just
reported `e`, and `c` is still where reading goes on.  An underflow brings nothing only if `dry`. -/
structure Supplies {δ : Type} [Origin δ] (P : Ibstreambuf δ → Cursor → Prop)
    (E : Errno → Ibstreambuf δ → Cursor → Prop) (dry : Cursor → Prop) : Prop where
  inside : ∀ {s c}, P s c → s.gnext ≤ s.gend ∧ s.gend - s.gnext < 2 ^ 64
  ahead : ∀ {s c} {n : Nat}, P s c → n ≤ s.gend - s.gnext →
    Origin.load s.dev s.gnext n = some (c.range n) ∧ (c.range n).length = n
  bump : ∀ {s c} {n : Nat}, P s c → n ≤ s.gend - s.gnext → P (s.gbump n) (c.forward n)
  underflow : ∀ {s c}, P s c → s.gnext = s.gend →
    (∃ s', Origin.reallyUnderflow.run s = .ok (.ok s'.available) s' ∧ P s' c ∧
      (s'.available = 0 → dry c)) ∨
    ∃ e s', Origin.reallyUnderflow.run s = .ok (.error e) s' ∧ E e s' c

section

variable {δ : Type} {P : Ibstreambuf δ → Cursor → Prop} {E : Errno → Ibstreambuf δ → Cursor → Prop}
  {dry : Cursor → Prop} {s : Ibstreambuf δ} {c c' : Cursor}

/-- How `get` and `peek` end; `c'` is the cursor after a byte. -/
inductive Fetched (P : Ibstreambuf δ → Cursor → Prop) (E : Errno → Ibstreambuf δ → Cursor → Prop)
    (dry : Cursor → Prop) (c c' : Cursor) : EStateM.Result ReadFailure (Ibstreambuf δ) UInt8 → Prop
  | byte {b : UInt8} {s : Ibstreambuf δ} : c.ahead = .ok b → P s c' → Fetched P E dry c c' (.ok b s)
  | dry {s : Ibstreambuf δ} : dry c → P s c → Fetched P E dry c c' (.error .pastEnd s)
  | failed {e : Errno} {s : Ibstreambuf δ} : E e s c → Fetched P E dry c c' (.error (.errno e) s)

/-- How a loop of `getn` for `n` bytes ends that has copied `dst` before. -/
inductive Copied (P : Ibstreambuf δ → Cursor → Prop) (E : Errno → Ibstreambuf δ → Cursor → Prop)
    (dry : Cursor → Prop) (c : Cursor) (n : Nat) (dst : List UInt8) :
    EStateM.Result ReadFailure (Ibstreambuf δ) (List UInt8 × Option Errno) → Prop
  | got {k : Nat} {s : Ibstreambuf δ} : k ≤ n → (c.range k).length = k →
    (k = n ∨ dry (c.forward k)) → P s (c.forward k) → Copied P E dry c n dst (.ok (dst ++ c.range k, none) s)
  | cut {k : Nat} {e : Errno} {s : Ibstreambuf δ} : k ≤ n → (c.range k).length = k →
    E e s (c.forward k) → Copied P E dry c n dst (.ok (dst ++ c.range k, some e) s)

theorem Cursor.range_append (c : Cursor) (k j : Nat) :
    c.range k ++ (c.forward k).range j = c.range (k + j) := by
  unfold Cursor.range Cursor.forward
  rw [← List.drop_drop, List.take_add]

theorem Cursor.forward_forward (c : Cursor) (k j : Nat) :
    (c.forward k).forward j = c.forward (k + j) := by
  rw [Cursor.forward, Cursor.forward, Cursor.forward, Nat.add_assoc]

theorem Cursor.length_range_append {c : Cursor} {k j : Nat} (hk : (c.range k).length = k)
    (hj : ((c.forward k).range j).length = j) : (c.range (k + j)).length = k + j := by
  rw [← Cursor.range_append, List.length_append, hk, hj]

/-- The rest of a loop that has copied `k` bytes. -/
theorem Copied.later {n k : Nat} {dst : List UInt8}
    {r : EStateM.Result ReadFailure (Ibstreambuf δ) (List UInt8 × Option Errno)} (hk : k ≤ n)
    (hlen : (c.range k).length = k)
    (h : Copied P E dry (c.forward k) (n - k) (dst ++ c.range k) r) : Copied P E dry c n dst r := by
  cases h with
  | @got j s hj hrange hfull hP =>
    rw [List.append_assoc, Cursor.range_append]
    rw [Cursor.forward_forward] at hfull hP
    refine .got (by omega) (Cursor.length_range_append hlen hrange) ?_ hP
    exact hfull.imp_left fun h => by omega
  | @cut j e s hj hrange hE =>
    rw [List.append_assoc, Cursor.range_append]
    rw [Cursor.forward_forward] at hE
    exact .cut (by omega) (Cursor.length_range_append hlen hrange) hE

theorem copied_nothing (hs : P s c) (dst : List UInt8) {n : Nat} (hfull : n = 0 ∨ dry c) :
    Copied P E dry c n dst (.ok (dst, none) s) := by
  have hgot : Copied P E dry c n dst (.ok (dst ++ c.range 0, none) s) :=
    .got (Nat.zero_le n) rfl (hfull.imp_left Eq.symm) hs
  rwa [Cursor.range, List.take_zero, List.append_nil] at hgot

theorem copied_cut {e : Errno} (hE : E e s c) (dst : List UInt8) (n : Nat) :
    Copied P E dry c n dst (.ok (dst, some e) s) := by
  have hcut : Copied P E dry c n dst (.ok (dst ++ c.range 0, some e) s) :=
    .cut (Nat.zero_le n) rfl hE
  rwa [Cursor.range, List.take_zero, List.append_nil] at hcut

variable [Origin δ]

namespace Supplies

theorem available_eq (h : Supplies P E dry) (hs : P s c) : (s.available : Int) = s.gend - s.gnext := by
  obtain ⟨hle, hlt⟩ := h.inside hs
  unfold Ibstreambuf.available
  omega

theorem look (h : Supplies P E dry) (hs : P s c) {n : Nat} (hn : n ≤ s.available) :
    (Fetch.look n).run s = .ok (c.range n) s := by
  have havail := h.available_eq hs
  have hload := (h.ahead hs (n := n) (by omega)).1
  show (match Origin.load s.dev s.gnext n with
    | some bs => pure bs
    | none => throw .undefined : Fetch δ (List UInt8)).run s = _
  rw [hload]
  rfl

/-- `get` and `peek` have a byte after this, or end. -/
theorem arrive (h : Supplies P E dry) (hs : P s c) :
    (∃ s', Fetch.arrive.run s = .ok () s' ∧ P s' c ∧ 1 ≤ s'.available) ∨
    (∃ s', Fetch.arrive.run s = .error .pastEnd s' ∧ P s' c ∧ dry c) ∨
    ∃ e s', Fetch.arrive.run s = .error (.errno e) s' ∧ E e s' c := by
  have havail := h.available_eq hs
  by_cases hfull : s.gend ≤ s.gnext
  · have heq : s.gnext = s.gend := le_antisymm (h.inside hs).1 hfull
    have harrive : Fetch.arrive.run s = (Fetch.demand (δ := δ)).run s := by
      show (if s.gend ≤ s.gnext then Fetch.check (s.gnext = s.gend) >>= fun _ => Fetch.demand
        else pure () : Fetch δ Unit).run s = _
      rw [if_pos hfull, Fetch.check, if_pos heq]
      rfl
    rw [harrive, Fetch.demand]
    rcases h.underflow hs heq with ⟨s', hrun, hP, hdry⟩ | ⟨e, s', hrun, hE⟩
    · rw [run_bind_ok hrun]
      by_cases hnone : s'.available < 1
      · right
        left
        refine ⟨s', ?_, hP, hdry (by omega)⟩
        show (if s'.available < 1 then throw .pastEnd else pure () : Fetch δ Unit).run s' = _
        rw [if_pos hnone]
        rfl
      · left
        refine ⟨s', ?_, hP, by omega⟩
        show (if s'.available < 1 then throw .pastEnd else pure () : Fetch δ Unit).run s' = _
        rw [if_neg hnone]
        rfl
    · right
      right
      refine ⟨e, s', ?_, hE⟩
      rw [run_bind_ok hrun]
      rfl
  · left
    refine ⟨s, ?_, hs, by omega⟩
    show (if s.gend ≤ s.gnext then Fetch.check (s.gnext = s.gend) >>= fun _ => Fetch.demand
      else pure () : Fetch δ Unit).run s = _
    rw [if_neg hfull]
    rfl

theorem current (h : Supplies P E dry) (hs : P s c) (hone : 1 ≤ s.available) :
    ∃ b, Fetch.current.run s = .ok b s ∧ c.ahead = .ok b := by
  have havail := h.available_eq hs
  have hlt : s.gnext < s.gend := by omega
  have hlen := (h.ahead hs (n := 1) (by omega)).2
  have hpos : c.pos < c.bytes.length := by
    rw [Cursor.range, List.length_take, List.length_drop] at hlen
    omega
  refine ⟨(c.range 1).headD 0, ?_, Ibstreambuf.Delivers.head_range hpos⟩
  show (Fetch.check (s.gnext < s.gend) >>= fun _ => Fetch.look 1 >>= fun bs => pure (bs.headD 0) :
    Fetch δ UInt8).run s = _
  rw [Fetch.check, if_pos hlt]
  show (Fetch.look 1 >>= fun bs => pure (bs.headD 0) : Fetch δ UInt8).run s = _
  rw [run_bind_ok (h.look hs hone)]
  rfl

theorem get (h : Supplies P E dry) (hs : P s c) :
    Fetched P E dry c (c.forward 1) (Fetch.get.run s) := by
  rcases h.arrive hs with ⟨s', hrun, hP, hone⟩ | ⟨s', hrun, hP, hdry⟩ | ⟨e, s', hrun, hE⟩
  · have havail := h.available_eq hP
    obtain ⟨b, hcurrent, hb⟩ := h.current hP hone
    rw [Fetch.get, run_bind_ok hrun, run_bind_ok hcurrent]
    exact .byte hb (h.bump hP (n := 1) (by omega))
  · rw [Fetch.get, EStateM.run_bind, hrun]
    exact .dry hdry hP
  · rw [Fetch.get, EStateM.run_bind, hrun]
    exact .failed hE

theorem peek (h : Supplies P E dry) (hs : P s c) : Fetched P E dry c c (Fetch.peek.run s) := by
  rcases h.arrive hs with ⟨s', hrun, hP, hone⟩ | ⟨s', hrun, hP, hdry⟩ | ⟨e, s', hrun, hE⟩
  · obtain ⟨b, hcurrent, hb⟩ := h.current hP hone
    rw [Fetch.peek, run_bind_ok hrun, hcurrent]
    exact .byte hb hP
  · rw [Fetch.peek, EStateM.run_bind, hrun]
    exact .dry hdry hP
  · rw [Fetch.peek, EStateM.run_bind, hrun]
    exact .failed hE

/-- A round of `getn` finds bytes, or none are to be had, or the underflow fails. -/
theorem replenish (h : Supplies P E dry) (hs : P s c) :
    (∃ s', Fetch.replenish.run s = .ok none s' ∧ P s' c ∧ (s'.available = 0 → dry c)) ∨
    ∃ e s', Fetch.replenish.run s = .ok (some e) s' ∧ E e s' c := by
  have havail := h.available_eq hs
  by_cases hnone : s.available < 1
  · have hreplenish : Fetch.replenish.run s = (Origin.reallyUnderflow >>= fun
        | .error e => pure (some e)
        | .ok _ => pure none : Fetch δ (Option Errno)).run s := by
      show (if s.available < 1 then _ else pure none : Fetch δ (Option Errno)).run s = _
      rw [if_pos hnone]
    rw [hreplenish]
    rcases h.underflow hs (by omega) with ⟨s', hrun, hP, hdry⟩ | ⟨e, s', hrun, hE⟩
    · left
      refine ⟨s', ?_, hP, hdry⟩
      rw [run_bind_ok hrun]
      rfl
    · right
      refine ⟨e, s', ?_, hE⟩
      rw [run_bind_ok hrun]
      rfl
  · left
    refine ⟨s, ?_, hs, fun hzero => by omega⟩
    show (if s.available < 1 then _ else pure none : Fetch δ (Option Errno)).run s = _
    rw [if_neg hnone]
    rfl

theorem copy (h : Supplies P E dry) (rounds : Nat) :
    ∀ {n : Nat} {s : Ibstreambuf δ} {c : Cursor} (dst : List UInt8), n ≤ rounds → P s c →
      Copied P E dry c n dst ((Fetch.copy rounds n dst).run s) := by
  induction rounds with
  | zero =>
    intro n s c dst hn hs
    obtain rfl : n = 0 := by omega
    exact copied_nothing hs dst (.inl rfl)
  | succ rounds ih =>
    intro n s c dst hn hs
    obtain _ | n := n
    · exact copied_nothing hs dst (.inl rfl)
    · rw [Fetch.copy]
      rcases h.replenish hs with ⟨s₁, hrun, h₁, hdry⟩ | ⟨e, s₁, hrun, hE⟩
      · rw [run_bind_ok hrun]
        let chunkSize : Nat := min (n + 1) s₁.available
        show Copied P E dry c (n + 1) dst ((if s₁.available < 1 then pure (dst, none) else
          Fetch.look chunkSize >>= fun bs => do
            modify fun s => s.gbump chunkSize
            Fetch.copy rounds (n + 1 - chunkSize) (dst ++ bs) : Fetch δ _).run s₁)
        split_ifs with hnone
        · exact copied_nothing h₁ dst (.inr (hdry (by omega)))
        · -- a round copies what the window has, and the rest is up to the next rounds
          have havail := h.available_eq h₁
          have hchunk : chunkSize ≤ n + 1 := min_le_left _ _
          have hwindow : chunkSize ≤ s₁.available := min_le_right _ _
          have hin : (chunkSize : Int) ≤ s₁.gend - s₁.gnext := by omega
          rw [run_bind_ok (h.look h₁ hwindow)]
          exact (ih (dst ++ c.range chunkSize) (by omega) (h.bump h₁ hin)).later hchunk
            (h.ahead h₁ hin).2
      · rw [run_bind_ok hrun]
        exact copied_cut hE dst (n + 1)

theorem getn (h : Supplies P E dry) (hs : P s c) (n : Nat) :
    Copied P E dry c n [] ((Fetch.getn n).run s) :=
  h.copy n [] le_rfl hs

end Supplies

end

end Nodeoze.Bstream
