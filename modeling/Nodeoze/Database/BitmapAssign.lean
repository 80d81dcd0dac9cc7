import Nodeoze.Database.BitmapSet

/-!
# The compound assignments

`|=` and `&=` go through the words of the right operand: a word that the left operand has is combined in
place, one that it does not have is appended as it is.  `-=` stops where the left operand ends.  The words of
the left operand past the end of the right one stay as they are.
-/

namespace Nodeoze.Database.Bitmap

open Counter (Gives)

/-- The body of the loop of `|=` and of `&=`. -/
def compound (f : BitVec 64 → BitVec 64 → BitVec 64) (rhs : Bitmap) (i : Nat) (words : List (BitVec 64)) :
    Except Bitmap (List (BitVec 64)) :=
  .ok (if i < words.length then words.set i (f (words.getD i 0#64) (rhs.words.getD i 0#64))
    else words ++ [rhs.words.getD i 0#64])

/-- The assignments whose loops count in an `unsigned long long`. -/
def compoundAssign (f : BitVec 64 → BitVec 64 → BitVec 64) (a b : Bitmap) (fuel : Nat) : Option Bitmap :=
  (Counter.loop 64 b.words.length (compound f b) fuel 0 a.words).map moved

/-- `operator|=` -/
def orAssign : Bitmap → Bitmap → Nat → Option Bitmap := compoundAssign fun x y => x ||| y

/-- `operator&=` -/
def andAssign : Bitmap → Bitmap → Nat → Option Bitmap := compoundAssign fun x y => x &&& y

/-- The body of the loop of `-=`, which it may break off. -/
def subtract (rhs : Bitmap) (i : Nat) (words : List (BitVec 64)) : Except Bitmap (List (BitVec 64)) :=
  if words.length ≤ i then .error ⟨words⟩
  else .ok (words.set i (words.getD i 0#64 &&& ~~~rhs.words.getD i 0#64))

/-- `operator-=`, whose loop counts in an `unsigned int` -/
def subAssign (a b : Bitmap) (fuel : Nat) : Option Bitmap :=
  (Counter.loop 32 b.words.length (subtract b) fuel 0 a.words).map moved

/-- The assignment and the operator both come to an end, with results that are equal under `==`. -/
def Agree (assign operator : Nat → Option Bitmap) : Prop :=
  ∃ r c, Gives assign r ∧ Gives operator c ∧ Gives (r.equals c) true

/-! ## What the loops leave -/

section

variable {a b r : Bitmap}

theorem getD_set (words : List (BitVec 64)) (k : Nat) (w : BitVec 64) (hk : k < words.length) (i : Nat) :
    (words.set k w).getD i 0#64 = if i = k then w else words.getD i 0#64 := by
  rw [List.getD_eq_getElem?_getD, List.getD_eq_getElem?_getD, List.getElem?_set]
  by_cases hi : k = i
  · subst hi
    simp [hk]
  · simp [hi, Ne.symm hi]

theorem getD_push (words : List (BitVec 64)) (w : BitVec 64) (i : Nat) :
    (words ++ [w]).getD i 0#64 = if i = words.length then w else words.getD i 0#64 := by
  rw [List.getD_eq_getElem?_getD, List.getD_eq_getElem?_getD]
  rcases Nat.lt_trichotomy i words.length with hlt | rfl | hgt
  · rw [List.getElem?_append_left hlt, if_neg (by omega)]
  · simp
  · rw [if_neg (by omega), List.getElem?_eq_none (by simp; omega), List.getElem?_eq_none (by omega)]

/-- One round more has a new word at `k`, and no other one. -/
theorem round_succ {w x y : BitVec 64} {k i : Nat} (h : i = k → w = x) :
    (if i = k then w else if i < k then x else y) = if i < k + 1 then x else y := by
  by_cases hi : i = k
  · rw [if_pos hi, if_pos (by omega), h hi]
  · have hlt : i < k ↔ i < k + 1 := by omega
    rw [if_neg hi]
    simp only [hlt]

/-- After `k` rounds: the words in front of `k` are combined or appended, the others are those of the left
operand. -/
theorem compound_range (f : BitVec 64 → BitVec 64 → BitVec 64) (a b : Bitmap) (k : Nat) :
    ∃ words, (List.range k).foldlM (fun s i => compound f b i s) a.words = .ok words ∧
      words.length = max a.words.length k ∧ ∀ i, words.getD i 0#64 =
        if i < k then if i < a.words.length then f (a.word i) (b.word i) else b.word i else a.word i := by
  induction k with
  | zero =>
    refine ⟨a.words, rfl, by omega, ?_⟩
    intro i
    rw [if_neg (Nat.not_lt_zero i), word_eq_getD]
  | succ k ih =>
    obtain ⟨words, hfold, hlength, hwords⟩ := ih
    by_cases hk : k < a.words.length
    · have hin : k < words.length := by omega
      refine ⟨words.set k (f (words.getD k 0#64) (b.words.getD k 0#64)), ?_, ?_, ?_⟩
      · rw [Counter.foldlM_succ_ok hfold, compound, if_pos hin]
      · rw [List.length_set]
        omega
      · intro i
        rw [getD_set words k _ hin, hwords i, hwords k, if_neg (Nat.lt_irrefl k), ← word_eq_getD b]
        apply round_succ
        rintro rfl
        rw [if_pos hk]
    · have hout : ¬k < words.length := by omega
      have hend : words.length = k := by omega
      refine ⟨words ++ [b.words.getD k 0#64], ?_, ?_, ?_⟩
      · rw [Counter.foldlM_succ_ok hfold, compound, if_neg hout]
      · rw [List.length_append, List.length_singleton]
        omega
      · intro i
        rw [getD_push, hwords i, hend, ← word_eq_getD b]
        apply round_succ
        rintro rfl
        rw [if_neg hk]

/-- The words that `|=` and `&=` leave. -/
theorem compoundAssign_gives (f : BitVec 64 → BitVec 64 → BitVec 64) (a : Bitmap)
    (hb : b.words.length < 2 ^ 64) :
    ∃ r, Gives (compoundAssign f a b) r ∧ r.words.length = max a.words.length b.words.length ∧
      ∀ i, r.word i = if i < b.words.length then
        if i < a.words.length then f (a.word i) (b.word i) else b.word i else a.word i := by
  obtain ⟨words, hfold, hlength, hwords⟩ := compound_range f a b b.words.length
  have hloop : Gives (fun fuel => Counter.loop 64 b.words.length (compound f b) fuel 0 a.words)
      (.ok words) := by
    rw [← hfold]
    exact Counter.gives_loop hb a.words
  refine ⟨⟨words⟩, hloop.map moved, hlength, ?_⟩
  intro i
  rw [word_eq_getD]
  exact hwords i

/-- After `k` rounds of the loop of `-=`, which may be broken off by then. -/
theorem subtract_range (a b : Bitmap) (k : Nat) :
    ∃ words, ((List.range k).foldlM (fun s i => subtract b i s) a.words = .ok words ∨
        a.words.length ≤ k ∧ (List.range k).foldlM (fun s i => subtract b i s) a.words = .error ⟨words⟩) ∧
      words.length = a.words.length ∧
      ∀ i, words.getD i 0#64 = if i < k then a.word i &&& ~~~b.word i else a.word i := by
  induction k with
  | zero =>
    refine ⟨a.words, .inl rfl, rfl, ?_⟩
    intro i
    rw [if_neg (Nat.not_lt_zero i), word_eq_getD]
  | succ k ih =>
    obtain ⟨words, hfold, hlength, hwords⟩ := ih
    -- behind the end of the left operand there is nothing to subtract from
    have hbeyond (hle : a.words.length ≤ k) (i : Nat) : words.getD i 0#64 =
        if i < k + 1 then a.word i &&& ~~~b.word i else a.word i := by
      have hzero : a.word k = 0#64 := word_eq_zero hle
      have hsame : words.getD i 0#64 = if i = k then a.word k else words.getD i 0#64 := by
        by_cases hi : i = k
        · rw [if_pos hi, hi, hwords k, if_neg (Nat.lt_irrefl k)]
        · rw [if_neg hi]
      rw [hsame, hwords i]
      apply round_succ
      rintro rfl
      rw [hzero, BitVec.zero_and]
    rcases hfold with hfold | ⟨hle, hfold⟩
    · by_cases hk : a.words.length ≤ k
      · refine ⟨words, .inr ⟨by omega, ?_⟩, hlength, hbeyond hk⟩
        rw [Counter.foldlM_succ_ok hfold, subtract, if_pos (by omega)]
      · have hin : k < words.length := by omega
        refine ⟨words.set k (words.getD k 0#64 &&& ~~~b.words.getD k 0#64), .inl ?_, ?_, ?_⟩
        · rw [Counter.foldlM_succ_ok hfold, subtract, if_neg (by omega)]
        · rw [List.length_set, hlength]
        · intro i
          rw [getD_set words k _ hin, hwords i, hwords k, if_neg (Nat.lt_irrefl k), ← word_eq_getD b]
          apply round_succ
          rintro rfl
          rfl
    · refine ⟨words, .inr ⟨by omega, ?_⟩, hlength, hbeyond hle⟩
      exact Counter.foldlM_succ_error hfold

/-- The words that `-=` leaves. -/
theorem subAssign_gives (a : Bitmap) (hb : b.words.length < 2 ^ 32) :
    ∃ r, Gives (a.subAssign b) r ∧ r.words.length = a.words.length ∧
      ∀ i, r.word i = a.word i &&& ~~~b.word i := by
  obtain ⟨words, hfold, hlength, hwords⟩ := subtract_range a b b.words.length
  have hloop : Gives (fun fuel => Counter.loop 32 b.words.length (subtract b) fuel 0 a.words)
      ((List.range b.words.length).foldlM (fun s i => subtract b i s) a.words) :=
    Counter.gives_loop hb a.words
  refine ⟨⟨words⟩, ?_, hlength, ?_⟩
  · rcases hfold with hfold | ⟨-, hfold⟩
    · rw [hfold] at hloop
      exact hloop.map moved
    · rw [hfold] at hloop
      exact hloop.map moved
  · intro i
    rw [word_eq_getD]
    refine (hwords i).trans ?_
    by_cases hi : i < b.words.length
    · rw [if_pos hi]
    · rw [if_neg hi, word_eq_zero (by omega : b.words.length ≤ i), BitVec.not_zero, BitVec.and_allOnes]

/-! ## Where they agree with the operators -/

theorem compoundAssign_unique {f : BitVec 64 → BitVec 64 → BitVec 64} {r' : Bitmap}
    (h : Gives (compoundAssign f a b) r) (h' : Gives (compoundAssign f a b) r') : r = r' :=
  Counter.map_loop_unique h h'

theorem combine_unique {f : BitVec 64 → BitVec 64 → BitVec 64} {c c' : Bitmap}
    (h : Gives (combine f a b) c) (h' : Gives (combine f a b) c') : c = c' :=
  Counter.map_loop_unique h h'

theorem equals_unique {v v' : Bool} (h : Gives (a.equals b) v) (h' : Gives (a.equals b) v') : v = v' := by
  unfold equals at h h'
  split_ifs at h h' with hlength
  · exact Counter.map_loop_unique h h'
  · exact Counter.map_loop_unique h h'

/-- Bitmaps that are equal under `==` have the same words. -/
theorem equals_true_iff (ha : a.words.length < 2 ^ 32) (hb : b.words.length < 2 ^ 32) :
    Gives (a.equals b) true ↔ ∀ i, a.word i = b.word i := by
  obtain ⟨v, hv, hiff⟩ := equals_gives ha hb
  rw [positions_eq_iff] at hiff
  rw [← hiff]
  constructor
  · intro htrue
    exact equals_unique hv htrue
  · rintro rfl
    exact hv

/-- An operator whose result is there. -/
theorem combine_lengths {f : BitVec 64 → BitVec 64 → BitVec 64} {c : Bitmap}
    (h : Gives (combine f a b) c) : a.words.length < 2 ^ 32 ∧ b.words.length < 2 ^ 32 := by
  obtain ⟨fuel, hfuel⟩ := h
  by_contra hlength
  rw [combine_diverges f (by omega) fuel] at hfuel
  cases hfuel

/-- An assignment of which the words are known agrees with an operator if and only if the words do. -/
theorem agree_iff {f : BitVec 64 → BitVec 64 → BitVec 64} (hf : f 0#64 0#64 = 0#64)
    {assign : Nat → Option Bitmap} (hunique : ∀ r', Gives assign r' → r' = r) (hr : Gives assign r)
    (ha : a.words.length < 2 ^ 32) (hb : b.words.length < 2 ^ 32)
    (hlength : r.words.length ≤ max a.words.length b.words.length) :
    Agree assign (combine f a b) ↔ ∀ i, r.word i = f (a.word i) (b.word i) := by
  obtain ⟨c, hc, hclength, hcwords⟩ := combine_gives f hf ha hb
  have hequals : Gives (r.equals c) true ↔ ∀ i, r.word i = f (a.word i) (b.word i) := by
    rw [equals_true_iff (by omega) (by omega)]
    simp only [hcwords]
  rw [← hequals]
  constructor
  · rintro ⟨r', c', hr', hc', htrue⟩
    rw [hunique r' hr', combine_unique hc' hc] at htrue
    exact htrue
  · intro htrue
    exact ⟨r, c, hr, hc, htrue⟩

theorem Agree.lengths {f : BitVec 64 → BitVec 64 → BitVec 64} {assign : Nat → Option Bitmap}
    (h : Agree assign (combine f a b)) : a.words.length < 2 ^ 32 ∧ b.words.length < 2 ^ 32 := by
  obtain ⟨-, c, -, hc, -⟩ := h
  exact combine_lengths hc

theorem orAssign_agree_iff :
    Agree (a.orAssign b) (a.or b) ↔ a.words.length < 2 ^ 32 ∧ b.words.length < 2 ^ 32 := by
  refine ⟨Agree.lengths, ?_⟩
  rintro ⟨ha, hb⟩
  obtain ⟨r, hr, hlength, hwords⟩ := compoundAssign_gives (b := b) (fun x y => x ||| y) a (by omega)
  apply (agree_iff (by decide) (fun r' hr' => compoundAssign_unique hr' hr) hr ha hb hlength.le).mpr
  intro i
  rw [hwords]
  by_cases hi : i < b.words.length
  · rw [if_pos hi]
    by_cases hi' : i < a.words.length
    · rw [if_pos hi']
    · rw [if_neg hi', word_eq_zero (by omega : a.words.length ≤ i), BitVec.zero_or]
  · rw [if_neg hi, word_eq_zero (by omega : b.words.length ≤ i), BitVec.or_zero]

/-- Past the end of the shorter operand there are no bits in the longer one. -/
def ZeroBeyond (a b : Bitmap) : Prop :=
  ∀ i, min a.words.length b.words.length ≤ i → a.word i = 0#64 ∧ b.word i = 0#64

theorem andAssign_agree_iff :
    Agree (a.andAssign b) (a.and b) ↔
      (a.words.length < 2 ^ 32 ∧ b.words.length < 2 ^ 32) ∧ ZeroBeyond a b := by
  by_cases hlengths : a.words.length < 2 ^ 32 ∧ b.words.length < 2 ^ 32
  · rw [and_iff_right hlengths]
    obtain ⟨ha, hb⟩ := hlengths
    obtain ⟨r, hr, hlength, hwords⟩ := compoundAssign_gives (b := b) (fun x y => x &&& y) a (by omega)
    refine (agree_iff (by decide) (fun r' hr' => compoundAssign_unique hr' hr) hr ha hb hlength.le).trans ?_
    apply forall_congr'
    intro i
    rw [hwords]
    by_cases hi : i < b.words.length
    · rw [if_pos hi]
      by_cases hi' : i < a.words.length
      · rw [if_pos hi']
        exact iff_of_true rfl fun hle => absurd hle (by omega)
      · have hzero : a.word i = 0#64 := word_eq_zero (by omega)
        rw [if_neg hi', hzero, BitVec.zero_and]
        constructor
        · intro hb _
          exact ⟨rfl, hb⟩
        · intro h
          exact (h (by omega)).2
    · have hzero : b.word i = 0#64 := word_eq_zero (by omega)
      rw [if_neg hi, hzero, BitVec.and_zero]
      constructor
      · intro ha _
        exact ⟨ha, rfl⟩
      · intro h
        exact (h (by omega)).1
  · exact iff_of_false (fun h => hlengths h.lengths) fun h => hlengths h.1

theorem subAssign_agree_iff :
    Agree (a.subAssign b) (a.sub b) ↔ a.words.length < 2 ^ 32 ∧ b.words.length < 2 ^ 32 := by
  refine ⟨Agree.lengths, ?_⟩
  rintro ⟨ha, hb⟩
  obtain ⟨r, hr, hlength, hwords⟩ := subAssign_gives a hb
  refine (agree_iff (by decide) (fun r' hr' => Counter.map_loop_unique hr' hr) hr ha hb ?_).mpr hwords
  omega

end

/-- The compound assignments agree with the operators if the words can be counted, `&=` only if besides the
longer operand has no bits past the end of the shorter one. -/
theorem compound_assignments_iff (a b : Bitmap) :
    (Agree (a.orAssign b) (a.or b) ↔ a.words.length < 2 ^ 32 ∧ b.words.length < 2 ^ 32) ∧
    (Agree (a.andAssign b) (a.and b) ↔
      (a.words.length < 2 ^ 32 ∧ b.words.length < 2 ^ 32) ∧ ZeroBeyond a b) ∧
    (Agree (a.subAssign b) (a.sub b) ↔ a.words.length < 2 ^ 32 ∧ b.words.length < 2 ^ 32) :=
  ⟨orAssign_agree_iff, andAssign_agree_iff, subAssign_agree_iff⟩

/-- A word that only one operand has stays, whichever operand it is. -/
theorem surplus_words_stay :
    Bitmap.andAssign ⟨[1]⟩ ⟨[1, 2]⟩ 3 = some ⟨[1, 2]⟩ ∧ Bitmap.and ⟨[1]⟩ ⟨[1, 2]⟩ 3 = some ⟨[1, 0]⟩ ∧
      ¬Agree (Bitmap.andAssign ⟨[1]⟩ ⟨[1, 2]⟩) (Bitmap.and ⟨[1]⟩ ⟨[1, 2]⟩) ∧
      Bitmap.andAssign ⟨[1, 2]⟩ ⟨[1]⟩ 3 = some ⟨[1, 2]⟩ ∧
      ¬Agree (Bitmap.andAssign ⟨[1, 2]⟩ ⟨[1]⟩) (Bitmap.and ⟨[1, 2]⟩ ⟨[1]⟩) := by
  refine ⟨by decide, by decide, ?_, by decide, ?_⟩
  · intro hagree
    have hzero := (andAssign_agree_iff.mp hagree).2 1 (by decide)
    exact absurd hzero.2 (by decide)
  · intro hagree
    have hzero := (andAssign_agree_iff.mp hagree).2 1 (by decide)
    exact absurd hzero.1 (by decide)

end Nodeoze.Database.Bitmap
