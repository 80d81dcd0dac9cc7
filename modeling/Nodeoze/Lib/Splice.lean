import Mathlib.Algebra.Order.Group.Nat
import Mathlib.Data.List.TakeDrop
import Mathlib.Tactic.Common

/-!
# Overwriting a part of a list

`splice l off bs` is `l` with `bs` written over it from position `off` on; it may reach beyond the
end of `l`.  `pad z l n` fills `l` up to length `n`, and a `Writer` is the machine that these two
make: bytes and a position, where a write beyond the end first fills the gap.
-/

namespace Splice

variable {α : Type}

/-- Overwrite a list from position `off` on. -/
def splice (l : List α) (off : Nat) (bs : List α) : List α :=
  l.take off ++ bs ++ l.drop (off + bs.length)

@[simp] theorem length_splice (l : List α) (off : Nat) (bs : List α)
    (h : off + bs.length ≤ l.length) : (splice l off bs).length = l.length := by
  simp only [splice, List.length_append, List.length_take, List.length_drop]
  omega

@[simp] theorem splice_nil (l : List α) (off : Nat) : splice l off [] = l := by
  simp [splice]

theorem splice_zero_take (l bs : List α) : (splice l 0 bs).take bs.length = bs := by
  simp [splice]

theorem take_splice (l : List α) (off : Nat) (bs : List α) (h : off ≤ l.length) :
    (splice l off bs).take (off + bs.length) = l.take off ++ bs := by
  have hlen : (l.take off ++ bs).length = off + bs.length := by
    rw [List.length_append, List.length_take, min_eq_left h]
  rw [splice, ← hlen, List.take_left]

/-- The list has changed in the part that was written over. -/
theorem getElem?_splice (l : List α) {off : Nat} (bs : List α) (h : off ≤ l.length) (j : Nat) :
    (splice l off bs)[j]? = if off ≤ j ∧ j < off + bs.length then bs[j - off]? else l[j]? := by
  have hfront : (l.take off).length = off := by rw [List.length_take, min_eq_left h]
  rw [splice, List.append_assoc, List.getElem?_append, List.getElem?_append, hfront,
    List.getElem?_take, List.getElem?_drop]
  split_ifs with hj hin hbs hin
  · omega
  · rfl
  · rfl
  · omega
  · omega
  · congr 1
    omega

theorem take_drop_splice (l : List α) (o n k : Nat) (bs : List α) (hk : k + bs.length ≤ n)
    (hn : o + n ≤ l.length) :
    ((splice l (o + k) bs).drop o).take n = splice ((l.drop o).take n) k bs := by
  have hlen : ((l.drop o).take n).length = n := by
    rw [List.length_take, List.length_drop]
    omega
  apply List.ext_getElem?
  intro j
  rw [List.getElem?_take, List.getElem?_drop, getElem?_splice l bs (by omega),
    getElem?_splice _ bs (by omega), List.getElem?_take, List.getElem?_drop]
  split_ifs
  · congr 1
    omega
  all_goals first | rfl | omega

/-- Writing into a list and looking at a front part of it. -/
theorem splice_take_max (l : List α) (m off : Nat) (bs : List α)
    (h : off + bs.length ≤ l.length) :
    splice (l.take (max m off)) off bs = (splice l off bs).take (max m (off + bs.length)) := by
  have hlen : off ≤ (l.take (max m off)).length := by
    rw [List.length_take]
    omega
  apply List.ext_getElem?
  intro j
  rw [getElem?_splice _ bs hlen, List.getElem?_take, List.getElem?_take,
    getElem?_splice l bs (by omega)]
  split_ifs <;> first | rfl | omega

/-- Fill a list up to length `n`. -/
def pad (z : α) (l : List α) (n : Nat) : List α := l ++ List.replicate (n - l.length) z

@[simp] theorem length_pad (z : α) (l : List α) (n : Nat) : (pad z l n).length = max l.length n := by
  simp only [pad, List.length_append, List.length_replicate]
  omega

theorem pad_of_le (z : α) {l : List α} {n : Nat} (h : n ≤ l.length) : pad z l n = l := by
  simp [pad, Nat.sub_eq_zero_of_le h]

/-- Bytes and the position of the next write. -/
structure Writer (α : Type) where
  bytes : List α
  pos : Nat
  deriving DecidableEq, Repr

namespace Writer

/-- Write at the position; a gap behind the end is filled with `z`. -/
def write (z : α) (w : Writer α) (bs : List α) : Writer α :=
  ⟨splice (pad z w.bytes w.pos) w.pos bs, w.pos + bs.length⟩

/-- The same, except that writing nothing does nothing. -/
def writes (z : α) (w : Writer α) (bs : List α) : Writer α := if bs.isEmpty then w else w.write z bs

@[simp] theorem writes_nil (z : α) (w : Writer α) : w.writes z [] = w := rfl

theorem writes_of_ne_nil (z : α) (w : Writer α) {bs : List α} (h : bs ≠ []) :
    w.writes z bs = w.write z bs := by
  rw [writes, if_neg]
  simpa using h

@[simp] theorem writes_pos (z : α) (w : Writer α) (bs : List α) :
    (w.writes z bs).pos = w.pos + bs.length := by
  unfold writes
  split_ifs with h
  · rw [List.isEmpty_iff.mp h, List.length_nil, Nat.add_zero]
  · rfl

theorem length_write (z : α) (w : Writer α) (bs : List α) :
    (w.write z bs).bytes.length = max w.bytes.length (w.pos + bs.length) := by
  simp only [write, splice, List.length_append, List.length_take, List.length_drop, length_pad]
  omega

/-- A write reaches as far as the new position. -/
theorem pos_le_writes (z : α) (w : Writer α) {bs : List α} (h : bs = [] → w.pos ≤ w.bytes.length) :
    (w.writes z bs).pos ≤ (w.writes z bs).bytes.length := by
  by_cases hbs : bs = []
  · rw [hbs, writes_nil]
    exact h hbs
  · rw [writes_pos, writes_of_ne_nil z w hbs, length_write]
    exact le_max_right _ _

theorem length_le_writes (z : α) (w : Writer α) (bs : List α) :
    w.bytes.length ≤ (w.writes z bs).bytes.length := by
  unfold writes
  split_ifs
  · exact le_rfl
  · rw [length_write]
    exact le_max_left _ _

theorem write_append (z : α) (w : Writer α) (as bs : List α) :
    (w.write z as).write z bs = w.write z (as ++ bs) := by
  have hpad : pad z (w.write z as).bytes (w.pos + as.length) = (w.write z as).bytes := by
    apply pad_of_le
    rw [length_write]
    omega
  have hlen : w.pos ≤ (pad z w.bytes w.pos).length := by
    rw [length_pad]
    omega
  unfold write at hpad ⊢
  simp only [hpad, List.length_append, Nat.add_assoc, mk.injEq, and_true]
  apply List.ext_getElem?
  intro j
  have hend : w.pos + as.length ≤ (splice (pad z w.bytes w.pos) w.pos as).length := by
    rw [splice, List.length_append, List.length_append, List.length_take]
    omega
  rw [getElem?_splice _ bs hend, getElem?_splice _ as hlen, getElem?_splice _ (as ++ bs) hlen,
    List.getElem?_append, List.length_append]
  split_ifs
  · omega
  · congr 1
    omega
  all_goals first | rfl | omega

theorem writes_append (z : α) (w : Writer α) (as bs : List α) :
    (w.writes z as).writes z bs = w.writes z (as ++ bs) := by
  by_cases ha : as = []
  · rw [ha, writes_nil, List.nil_append]
  · by_cases hb : bs = []
    · rw [hb, writes_nil, List.append_nil]
    · have hab : as ++ bs ≠ [] := fun h => ha (List.append_eq_nil_iff.mp h).1
      rw [writes_of_ne_nil z w ha, writes_of_ne_nil z _ hb, writes_of_ne_nil z w hab, write_append]

end Writer

/-- What the second list does not reach plays no part. -/
theorem zipWith_append_left {β γ : Type} (f : α → β → γ) {l : List α} {r : List β} (h : r.length ≤ l.length)
    (m : List α) : List.zipWith f (l ++ m) r = List.zipWith f l r := by
  induction l generalizing r with
  | nil => rw [List.eq_nil_of_length_eq_zero (Nat.le_zero.mp h), List.zipWith_nil_right, List.zipWith_nil_right]
  | cons a l ih =>
    cases r with
    | nil => rfl
    | cons b r =>
      rw [List.length_cons, List.length_cons, Nat.succ_le_succ_iff] at h
      rw [List.cons_append, List.zipWith_cons_cons, List.zipWith_cons_cons, ih h]

end Splice
