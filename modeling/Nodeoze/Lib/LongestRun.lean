import Mathlib.Data.List.Basic
import Mathlib.Tactic.Common

/-!
# The longest run in a list

The elements are passed once.  A run that is open gets longer, and when it ends it is kept if it is longer
than the one that was kept before.  What is kept in the end is a run, and no other is longer.
-/

namespace LongestRun

/-- A part of a list. -/
structure Run where
  base : Nat
  len : Nat
  deriving DecidableEq, Repr

variable {α : Type} (p : α → Bool)

/-- All elements of a part have the property. -/
def IsRun (l : List α) (r : Run) : Prop :=
  ∀ i, r.base ≤ i → i < r.base + r.len → ∃ x, l[i]? = some x ∧ p x = true

structure Scan where
  best : Option Run
  cur : Option Run

def longer (best : Option Run) (r : Run) : Run :=
  match best with
  | none => r
  | some b => if b.len < r.len then r else b

/-- The open run ends. -/
def Scan.close (s : Scan) : Option Run :=
  match s.cur with
  | none => s.best
  | some r => some (longer s.best r)

def Scan.step (s : Scan) (i : Nat) (x : α) : Scan :=
  if p x then
    match s.cur with
    | none => { s with cur := some ⟨i, 1⟩ }
    | some r => { s with cur := some ⟨r.base, r.len + 1⟩ }
  else ⟨s.close, none⟩

def scan (s : Scan) (i : Nat) : List α → Scan
  | [] => s
  | x :: l => scan (s.step p i x) (i + 1) l

def longest (l : List α) : Option Run := (scan p ⟨none, none⟩ 0 l).close

/-! ## What the scan keeps -/

def length (r : Option Run) : Nat := (r.map Run.len).getD 0

/-- Where the open run begins, or might begin next. -/
def Scan.start (s : Scan) (n : Nat) : Nat := (s.cur.map Run.base).getD n

/-- After these elements: the runs that are kept are runs, the open one is at the end, and a run that begins
before the open one does not reach it and is not longer than the best. -/
structure Inv (l : List α) (s : Scan) : Prop where
  best : ∀ r, s.best = some r → IsRun p l r ∧ 0 < r.len
  cur : ∀ r, s.cur = some r → IsRun p l r ∧ 0 < r.len ∧ r.base + r.len = l.length
  left : ∀ r, IsRun p l r → 0 < r.len →
    s.start l.length ≤ r.base ∨ (r.base + r.len < s.start l.length ∧ r.len ≤ length s.best)

variable {p} {l : List α} {s : Scan} {r : Run} {x : α}

theorem IsRun.le_length (h : IsRun p l r) (hpos : 0 < r.len) : r.base + r.len ≤ l.length := by
  obtain ⟨x, hx, -⟩ := h (r.base + r.len - 1) (by omega) (by omega)
  have := (List.getElem?_eq_some_iff.mp hx).1
  omega

theorem IsRun.append (h : IsRun p l r) (l' : List α) : IsRun p (l ++ l') r := by
  intro i hbase hend
  obtain ⟨x, hx, hp⟩ := h i hbase hend
  exact ⟨x, by rw [List.getElem?_append_left (List.getElem?_eq_some_iff.mp hx).1, hx], hp⟩

/-- A run that does not reach the new element was one before. -/
theorem IsRun.of_snoc (h : IsRun p (l ++ [x]) r) (hend : r.base + r.len ≤ l.length) : IsRun p l r := by
  intro i hbase hi
  obtain ⟨y, hy, hp⟩ := h i hbase hi
  rw [List.getElem?_append_left (by omega)] at hy
  exact ⟨y, hy, hp⟩

theorem IsRun.last (h : IsRun p (l ++ [x]) r) (hpos : 0 < r.len) (hend : l.length < r.base + r.len) :
    p x = true ∧ r.base + r.len = l.length + 1 := by
  have hle := h.le_length hpos
  rw [List.length_append, List.length_singleton] at hle
  obtain ⟨y, hy, hp⟩ := h l.length (by omega) (by omega)
  rw [List.getElem?_concat_length, Option.some.injEq] at hy
  exact ⟨hy ▸ hp, by omega⟩

theorem IsRun.snoc (h : IsRun p l r) (hend : r.base + r.len = l.length) (hx : p x = true) :
    IsRun p (l ++ [x]) ⟨r.base, r.len + 1⟩ := by
  intro i hbase hi
  simp only at hbase hi
  by_cases hlast : i = l.length
  · exact ⟨x, by rw [hlast, List.getElem?_concat_length], hx⟩
  · obtain ⟨y, hy, hp⟩ := h.append [x] i hbase (by omega)
    exact ⟨y, hy, hp⟩

theorem isRun_singleton (hx : p x = true) : IsRun p (l ++ [x]) ⟨l.length, 1⟩ := by
  intro i hbase hi
  simp only at hbase hi
  obtain rfl : i = l.length := by omega
  exact ⟨x, List.getElem?_concat_length, hx⟩

theorem longer_spec (best : Option Run) (r : Run) :
    (longer best r = r ∨ best = some (longer best r)) ∧ length best ≤ (longer best r).len ∧
      r.len ≤ (longer best r).len := by
  cases best with
  | none => exact ⟨.inl rfl, Nat.zero_le _, Nat.le_refl _⟩
  | some b =>
    simp only [longer, length, Option.map_some, Option.getD_some]
    split_ifs with hlt
    · exact ⟨.inl rfl, Nat.le_of_lt hlt, Nat.le_refl _⟩
    · exact ⟨.inr rfl, Nat.le_refl _, Nat.not_lt.mp hlt⟩

/-- What is kept when the open run ends is a run, and the longest one. -/
theorem Inv.close (h : Inv p l s) :
    (∀ r, s.close = some r → IsRun p l r ∧ 0 < r.len) ∧ ∀ r, IsRun p l r → r.len ≤ length s.close := by
  unfold Scan.close
  cases hcur : s.cur with
  | none =>
    refine ⟨h.best, fun r hr => ?_⟩
    change r.len ≤ length s.best
    by_contra hlt
    have hle := hr.le_length (by omega)
    rcases h.left r hr (by omega) with hstart | ⟨-, hbest⟩
    · rw [Scan.start, hcur, Option.map_none, Option.getD_none] at hstart
      omega
    · omega
  | some c =>
    obtain ⟨hc, hpos, hend⟩ := h.cur c hcur
    obtain ⟨hchoice, hbest, hcurrent⟩ := longer_spec s.best c
    simp only [length, Option.map_some, Option.getD_some, Option.some.injEq]
    refine ⟨?_, fun r hr => ?_⟩
    · rintro r rfl
      rcases hchoice with heq | heq
      · rw [heq]
        exact ⟨hc, hpos⟩
      · exact h.best _ heq
    · by_contra hlt
      have hle := hr.le_length (by omega)
      rcases h.left r hr (by omega) with hstart | ⟨-, hshort⟩
      · rw [Scan.start, hcur, Option.map_some, Option.getD_some] at hstart
        omega
      · omega

/-- The new element goes on with a run, or begins one. -/
theorem Inv.step_true (h : Inv p l s) (hx : p x = true) : Inv p (l ++ [x]) (s.step p l.length x) := by
  have hbest : ∀ r, s.best = some r → IsRun p (l ++ [x]) r ∧ 0 < r.len :=
    fun r hr => ⟨(h.best r hr).1.append [x], (h.best r hr).2⟩
  -- a run that ends with the new element does not begin before the open one
  have hleft : ∀ start, start = s.start l.length → start ≤ l.length → ∀ r, IsRun p (l ++ [x]) r → 0 < r.len →
      start ≤ r.base ∨ (r.base + r.len < start ∧ r.len ≤ length s.best) := by
    rintro start rfl hstart r hr hpos
    by_cases hend : r.base + r.len ≤ l.length
    · exact h.left r (hr.of_snoc hend) hpos
    · left
      by_contra hlt
      obtain ⟨-, hlast⟩ := hr.last hpos (by omega)
      have hr' : IsRun p l ⟨r.base, r.len - 1⟩ := by
        refine IsRun.of_snoc (fun i hbase hi => hr i hbase ?_) ?_ <;> simp only at * <;> omega
      rcases h.left _ hr' (by simp only; omega) with hle | ⟨hlt', -⟩ <;> simp only at * <;> omega
  unfold Scan.step
  rw [if_pos hx]
  cases hcur : s.cur with
  | none =>
    have hstart : s.start l.length = l.length := by rw [Scan.start, hcur]; rfl
    refine ⟨hbest, ?_, ?_⟩
    · rintro r hr
      obtain rfl := Option.some.inj hr
      exact ⟨isRun_singleton hx, Nat.one_pos, by simp⟩
    · exact hleft l.length hstart.symm (Nat.le_refl _)
  | some c =>
    obtain ⟨hc, hpos, hend⟩ := h.cur c hcur
    have hstart : s.start l.length = c.base := by rw [Scan.start, hcur]; rfl
    refine ⟨hbest, ?_, ?_⟩
    · rintro r hr
      obtain rfl := Option.some.inj hr
      refine ⟨hc.snoc hend hx, Nat.succ_pos _, ?_⟩
      rw [List.length_append, List.length_singleton]
      simp only
      omega
    · exact hleft c.base hstart.symm (by omega)

/-- The new element ends the open run. -/
theorem Inv.step_false (h : Inv p l s) (hx : p x = false) : Inv p (l ++ [x]) (s.step p l.length x) := by
  obtain ⟨hrun, hlongest⟩ := h.close
  unfold Scan.step
  rw [if_neg (by simp [hx])]
  refine ⟨fun r hr => ⟨(hrun r hr).1.append [x], (hrun r hr).2⟩, nofun, fun r hr hpos => ?_⟩
  have hend : r.base + r.len ≤ l.length := by
    by_contra hlt
    obtain ⟨hp, -⟩ := hr.last hpos (by omega)
    rw [hx] at hp
    contradiction
  right
  refine ⟨?_, hlongest r (hr.of_snoc hend)⟩
  simp only [Scan.start, Option.map_none, Option.getD_none, List.length_append, List.length_singleton]
  omega

theorem Inv.scan (h : Inv p l s) (l' : List α) : Inv p (l ++ l') (scan p s l.length l') := by
  induction l' generalizing l s with
  | nil => rwa [List.append_nil]
  | cons x l' ih =>
    have hstep : Inv p (l ++ [x]) (s.step p l.length x) := by
      cases hx : p x with
      | true => exact h.step_true hx
      | false => exact h.step_false hx
    have hrest := ih hstep
    rw [List.append_assoc, List.length_append] at hrest
    exact hrest

/-- The run that is found is one, and no run is longer. -/
theorem longest_spec (l : List α) :
    (∀ r, longest p l = some r → IsRun p l r ∧ 0 < r.len) ∧ ∀ r, IsRun p l r → r.len ≤ length (longest p l) := by
  have hempty : Inv p [] ⟨none, none⟩ := by
    refine ⟨nofun, nofun, fun r hr hpos => ?_⟩
    have := hr.le_length hpos
    rw [List.length_nil] at this
    omega
  exact (hempty.scan l).close

end LongestRun
