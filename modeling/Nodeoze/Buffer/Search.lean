import Nodeoze.Lib.Subword
import Nodeoze.Buffer.Contents

/-!
# Searching in a buffer

`find( s, len, pos )` searches from `m_data + pos` to `m_data + m_size - pos`, and takes what `std::search`
returns for the place of a match if it is less than `m_size`.  The elements are `std::uint8_t` and the
pattern is `char`: where `char` is signed, a byte from 128 on is equal to no element.
-/

namespace Nodeoze.Buffer

open RefHeap Subword

/-- A `char` as an operand of `==`. -/
def charValue (signed : Bool) (b : UInt8) : Int :=
  if signed = true ∧ 128 ≤ b.toNat then (b.toNat : Int) - 256 else b.toNat

def elemValue (b : UInt8) : Int := b.toNat

/-- `find( s, len, pos )`: a position, or `npos`.  A range that ends before it starts is undefined. -/
def find (signed : Bool) (H : Heap) (i : Nat) (s : List UInt8) (pos : Nat) : Option (Option Nat) := do
  if (pos + s.length) % sizeLimit < sizeOf H i then
    let h ← H.bufs i
    if 2 * pos ≤ h.size then
      let range ← H.read (h.at pos) (h.size - 2 * pos)
      let index := pos + search (s.map (charValue signed)) (range.map elemValue)
      pure (if index < h.size then some index else none)
    else none
  else pure none

/-- What is to be returned for a pattern. -/
def Least (s c : List UInt8) (pos : Nat) : Option Nat → Prop
  | some i => First s c pos i
  | none => ∀ i, pos ≤ i → ¬Occurs s c i

def Finds (r : Option (Option Nat)) (s c : List UInt8) (pos : Nat) : Prop :=
  ∃ answer, r = some answer ∧ Least s c pos answer

/-- The bytes of the pattern are equal to elements. -/
def Comparable (signed : Bool) (s : List UInt8) : Prop := signed = true → ∀ b ∈ s, b.toNat < 128

/-- The pattern is in the part that is searched, or right behind it, or there is no such part and the pattern
is not in the buffer. -/
def Searchable (signed : Bool) (s c : List UInt8) (pos : Nat) : Prop :=
  if (pos + s.length) % sizeLimit < c.length then
    (pos = 0 ∧ (Comparable signed s ∨ ∀ i, ¬Occurs s c i)) ∨
      ∃ i, First s c pos i ∧ (Comparable signed s ∧ i + s.length + pos ≤ c.length ∨ i + pos = c.length)
  else ∀ i, pos ≤ i → ¬Occurs s c i

section

variable {signed : Bool} {s c : List UInt8}

theorem elemValue_injective : Function.Injective elemValue := by
  intro a b hab
  apply UInt8.toNat_inj.mp
  exact Int.ofNat_inj.mp hab

theorem charValue_eq {b : UInt8} (hb : signed = true → b.toNat < 128) :
    charValue signed b = elemValue b := by
  refine if_neg ?_
  rintro ⟨hsigned, hhigh⟩
  have hlow := hb hsigned
  omega

theorem lt_of_charValue {b : UInt8} (hsigned : signed = true) (h : 0 ≤ charValue signed b) :
    b.toNat < 128 := by
  by_contra hhigh
  have hlt := b.toNat_lt
  rw [charValue, if_pos ⟨hsigned, by omega⟩] at h
  omega

/-- A match of the values is a match of the bytes. -/
theorem occurs_values {j : Nat} :
    Occurs (s.map (charValue signed)) (c.map elemValue) j ↔ Comparable signed s ∧ Occurs s c j := by
  have hsame (hc : Comparable signed s) : s.map (charValue signed) = s.map elemValue :=
    List.map_congr_left fun b hb => charValue_eq fun hsigned => hc hsigned b hb
  unfold Occurs
  rw [List.length_map, List.length_map, ← List.map_drop, ← List.map_take]
  constructor
  · rintro ⟨hle, htake⟩
    have hcomparable : Comparable signed s := by
      intro hsigned b hb
      have hmem := List.mem_map_of_mem (f := charValue signed) hb
      rw [← htake] at hmem
      obtain ⟨a, -, ha⟩ := List.mem_map.mp hmem
      apply lt_of_charValue hsigned
      rw [← ha]
      exact Int.natCast_nonneg _
    rw [hsame hcomparable] at htake
    exact ⟨hcomparable, hle, List.map_injective_iff.mpr elemValue_injective htake⟩
  · rintro ⟨hcomparable, hle, htake⟩
    rw [hsame hcomparable, htake]
    exact ⟨hle, rfl⟩

end

section

variable {H : Heap} {i : Nat} {h : Handle} {B : Block UInt8 Policy} {s c : List UInt8}

theorem Finds.some_iff {a : Option Nat} {pos : Nat} : Finds (some a) s c pos ↔ Least s c pos a := by
  constructor
  · rintro ⟨a', hsome, hleast⟩
    obtain rfl := Option.some.inj hsome
    exact hleast
  · intro hleast
    exact ⟨a, rfl, hleast⟩

/-- The two ways in which the search of the range ends. -/
theorem search_range (signed : Bool) (hs : s ≠ []) {pos : Nat} (hpos : 2 * pos ≤ c.length) :
    let k := search (s.map (charValue signed)) (((c.drop pos).take (c.length - 2 * pos)).map elemValue)
    (Comparable signed s ∧ pos + k + s.length + pos ≤ c.length ∧ First s c pos (pos + k)) ∨
      (k = c.length - 2 * pos ∧
        (Comparable signed s → ∀ j, pos ≤ j → j + s.length + pos ≤ c.length → ¬Occurs s c j)) := by
  intro k
  have hlen : ((c.drop pos).take (c.length - 2 * pos)).length = c.length - 2 * pos := by
    rw [List.length_take, List.length_drop]
    omega
  have hocc {j : Nat} : Occurs (s.map (charValue signed))
      (((c.drop pos).take (c.length - 2 * pos)).map elemValue) j ↔
      Comparable signed s ∧ j + s.length ≤ c.length - 2 * pos ∧ Occurs s c (pos + j) := by
    rw [occurs_values, occurs_part (by omega)]
  have hs' : s.map (charValue signed) ≠ [] := by
    intro h
    exact hs (List.map_eq_nil_iff.mp h)
  rcases search_spec hs' (((c.drop pos).take (c.length - 2 * pos)).map elemValue) with
    ⟨-, hfound, hmin⟩ | ⟨hend, hnone⟩
  · left
    obtain ⟨hcomparable, hin, hfound⟩ := hocc.mp hfound
    refine ⟨hcomparable, by omega, by omega, hfound, ?_⟩
    intro j hlt hj hbefore
    refine hmin (j - pos) (by omega) (Nat.zero_le _) (hocc.mpr ⟨hcomparable, by omega, ?_⟩)
    rwa [Nat.add_sub_cancel' hj]
  · right
    refine ⟨by rw [← hlen, ← List.length_map (f := elemValue)]; exact hend, ?_⟩
    intro hcomparable j hj hin hoccurs
    refine hnone (j - pos) (hocc.mpr ⟨hcomparable, by omega, ?_⟩)
    rwa [Nat.add_sub_cancel' hj]

/-- What is returned for the position at which the search of the range ends.  Not found is the end of the
range, which for a `pos` above 0 is less than `m_size`. -/
theorem least_search_iff (signed : Bool) (hs : s ≠ []) {pos k : Nat} (hpos : 2 * pos ≤ c.length)
    (hk : search (s.map (charValue signed)) (((c.drop pos).take (c.length - 2 * pos)).map elemValue) = k) :
    Least s c pos (if pos + k < c.length then some (pos + k) else none) ↔
      (pos = 0 ∧ (Comparable signed s ∨ ∀ i, ¬Occurs s c i)) ∨
        ∃ i, First s c pos i ∧
          (Comparable signed s ∧ i + s.length + pos ≤ c.length ∨ i + pos = c.length) := by
  have hlen : 0 < s.length := List.length_pos_iff.mpr hs
  have hrange := search_range signed hs hpos
  rw [hk] at hrange
  rcases hrange with ⟨hcomparable, hin, hfirst⟩ | ⟨hend, hnone⟩
  · rw [if_pos (by omega)]
    exact iff_of_true hfirst (.inr ⟨pos + k, hfirst, .inl ⟨hcomparable, hin⟩⟩)
  · by_cases hzero : pos = 0
    · subst hzero
      rw [if_neg (by omega)]
      constructor
      · intro hleast
        exact .inl ⟨rfl, .inr fun j => hleast j (Nat.zero_le j)⟩
      · rintro (⟨-, hcomparable | hnowhere⟩ | ⟨j, ⟨hj, hoccurs, -⟩, ⟨hcomparable, hin⟩ | hin⟩)
        · intro j hj hoccurs
          exact hnone hcomparable j hj hoccurs.1 hoccurs
        · intro j _
          exact hnowhere j
        · exact absurd hoccurs (hnone hcomparable j hj hin)
        · have hle := hoccurs.1
          omega
    · have hk' : pos + k = c.length - pos := by omega
      rw [if_pos (by omega), hk']
      constructor
      · intro hfirst
        exact .inr ⟨_, hfirst, .inr (by omega)⟩
      · rintro (⟨hpos0, -⟩ | ⟨j, hfirst, ⟨hcomparable, hin⟩ | hin⟩)
        · exact absurd hpos0 hzero
        · exact absurd hfirst.2.1 (hnone hcomparable j hfirst.1 hin)
        · have hj : c.length - pos = j := by omega
          rw [hj]
          exact hfirst

theorem Owned.find_iff (o : Owned H i h B c) (signed : Bool) (hs : s ≠ []) (pos : Nat) :
    Finds (Buffer.find signed H i s pos) s c pos ↔ Searchable signed s c pos := by
  unfold Searchable
  by_cases hguard : (pos + s.length) % sizeLimit < c.length
  · rw [if_pos hguard]
    by_cases hpos : 2 * pos ≤ c.length
    · have hread := o.read_at (k := pos) (n := c.length - 2 * pos) (by rw [← o.length]; omega)
      obtain ⟨k, hk⟩ : ∃ k, search (s.map (charValue signed))
          (((c.drop pos).take (c.length - 2 * pos)).map elemValue) = k := ⟨_, rfl⟩
      have hfind : Buffer.find signed H i s pos =
          some (if pos + k < c.length then some (pos + k) else none) := by
        simp [Buffer.find, sizeOf_eq o.buf, o.buf, ← o.length, hguard, hpos, hread, hk,
          -List.map_take, -List.map_drop]
      rw [hfind, Finds.some_iff]
      exact least_search_iff signed hs hpos hk
    · have hfind : Buffer.find signed H i s pos = none := by
        simp [Buffer.find, sizeOf_eq o.buf, o.buf, ← o.length, hguard, hpos]
      have hlen : 0 < s.length := List.length_pos_iff.mpr hs
      rw [hfind]
      refine iff_of_false ?_ ?_
      · rintro ⟨a, hsome, -⟩
        cases hsome
      · rintro (⟨rfl, -⟩ | ⟨j, ⟨hj, -⟩, ⟨-, hin⟩ | hin⟩)
        · omega
        · omega
        · omega
  · have hfind : Buffer.find signed H i s pos = some none := by
      simp [Buffer.find, sizeOf_eq o.buf, ← o.length, hguard]
    rw [if_neg hguard, hfind]
    exact Finds.some_iff

end

/-- After any allowed run, `find` returns the first match from `pos` on, or `npos` if there is none, exactly
for the patterns and positions that are searchable. -/
theorem find_least (signed : Bool) (junk : Nat → Nat → UInt8) (ops : List Op)
    (hallow : allowsRun junk RefHeap.empty ops = true) :
    ∃ H, run junk RefHeap.empty ops = some H ∧ ∀ i h, H.bufs i = some h →
      ∃ c, H.content i = some c ∧ c.length = h.size ∧ ∀ s pos, s ≠ [] →
        (Finds (find signed H i s pos) s c pos ↔ Searchable signed s c pos) := by
  obtain ⟨H, hrun, inv⟩ := inv_of_run junk hallow
  refine ⟨H, hrun, fun i h hi => ?_⟩
  obtain ⟨B, c, o, -⟩ := inv.owned hi
  exact ⟨c, o.content, o.length, fun s pos hs => o.find_iff signed hs pos⟩

theorem find_least_sliceRun :
    ∃ H, run (fun _ _ => 0) RefHeap.empty sliceRun = some H ∧
      Finds (find true H 0 [2, 3] 0) [2, 3] [1, 2, 3, 4] 0 ∧
      Finds (find true H 0 [2] 1) [2] [1, 2, 3, 4] 1 ∧
      Finds (find true H 1 [4] 1) [4] [2, 3] 1 := by
  obtain ⟨H, hrun, hall⟩ := find_least true (fun _ _ => 0) sliceRun (by decide)
  refine ⟨H, hrun, ?_⟩
  obtain rfl := Option.some.inj hrun
  obtain ⟨c₀, hc₀, -, hfind₀⟩ := hall 0 _ rfl
  obtain ⟨c₁, hc₁, -, hfind₁⟩ := hall 1 _ rfl
  obtain rfl := Option.some.inj hc₀
  obtain rfl := Option.some.inj hc₁
  refine ⟨(hfind₀ [2, 3] 0 ?_).mpr (.inl ⟨rfl, .inl ?_⟩),
    (hfind₀ [2] 1 ?_).mpr (.inr ⟨1, ?_, .inl ⟨?_, ?_⟩⟩), (hfind₁ [4] 1 ?_).mpr ?_⟩
  · decide
  · simp [Comparable]
  · decide
  · decide
  · simp [Comparable]
  · decide
  · decide
  · intro j hj hoccurs
    obtain rfl : j = 1 := Nat.le_antisymm (Nat.le_of_succ_le_succ hoccurs.1) hj
    exact absurd hoccurs (by decide)

/-- A match at the end of the buffer is not found; a pattern that is not there is found behind the part that
is searched; beyond the middle there is no such part; a byte from 128 on is not found. -/
theorem find_misses :
    ∃ H, run (fun _ _ => 0) RefHeap.empty [.construct [1, 2, 3, 200, 5, 6] .copyOnWrite] = some H ∧
      H.content 0 = some [1, 2, 3, 200, 5, 6] ∧
      find true H 0 [5, 6] 4 = some none ∧
      ¬Finds (find true H 0 [5, 6] 4) [5, 6] [1, 2, 3, 200, 5, 6] 4 ∧
      find true H 0 [1] 1 = some (some 5) ∧
      ¬Finds (find true H 0 [1] 1) [1] [1, 2, 3, 200, 5, 6] 1 ∧
      ¬Finds (find true H 0 [5] 4) [5] [1, 2, 3, 200, 5, 6] 4 ∧
      ¬Finds (find true H 0 [200] 0) [200] [1, 2, 3, 200, 5, 6] 0 := by
  refine ⟨_, rfl, rfl, ?_, ?_, ?_, ?_, ?_, ?_⟩
  · decide
  · rintro ⟨a, hfind, hleast⟩
    obtain rfl := Option.some.inj hfind
    exact hleast 4 (by decide) (by decide)
  · decide
  · rintro ⟨a, hfind, hleast⟩
    obtain rfl := Option.some.inj hfind
    exact absurd hleast.2.1 (by decide)
  · rintro ⟨a, hfind, -⟩
    cases hfind
  · rintro ⟨a, hfind, hleast⟩
    obtain rfl := Option.some.inj hfind
    exact hleast 3 (by decide) (by decide)

end Nodeoze.Buffer
