import Mathlib.Algebra.Order.Ring.Int
import Mathlib.Data.List.Basic
import Mathlib.Order.Basic

/-!
# Maps in the order of their keys

A map is the list of its entries, in strictly increasing order of the keys, as iterators walk over it.
`firstWhere` is where such a walk finds the first entry that it looks for.
-/

structure SortedMap (K V : Type) [LinearOrder K] where
  entries : List (K × V)
  sorted : entries.Pairwise fun a b => a.1 < b.1

namespace SortedMap

variable {K V : Type} [LinearOrder K]

def empty : SortedMap K V := ⟨[], .nil⟩

def find (m : SortedMap K V) (k : K) : Option V := m.entries.lookup k

def erase (m : SortedMap K V) (k : K) : SortedMap K V :=
  ⟨m.entries.filter fun e => decide (e.1 ≠ k), m.sorted.filter _⟩

/-- `m[ k ] = v` -/
def assign (m : SortedMap K V) (k : K) (v : V) : SortedMap K V where
  entries := (m.entries.filter fun e => decide (e.1 < k)) ++
    (k, v) :: m.entries.filter fun e => decide (k < e.1)
  sorted := by
    rw [List.pairwise_append]
    refine ⟨m.sorted.filter _, ?_, ?_⟩
    · rw [List.pairwise_cons]
      refine ⟨fun e he => ?_, m.sorted.filter _⟩
      simpa using (List.mem_filter.mp he).2
    · intro a ha b hb
      have hlt : a.1 < k := by simpa using (List.mem_filter.mp ha).2
      rcases List.mem_cons.mp hb with rfl | hb
      · exact hlt
      · exact hlt.trans (by simpa using (List.mem_filter.mp hb).2)

/-- The first entry with a property. -/
def firstWhere (m : SortedMap K V) (p : K × V → Bool) : Option (K × V) := m.entries.find? p

/-- Where an iterator stands at the beginning, if not at the end. -/
def first (m : SortedMap K V) : Option K := (m.firstWhere fun _ => true).map Prod.fst

/-- The key behind `k`. -/
def next (m : SortedMap K V) (k : K) : Option K :=
  (m.firstWhere fun e => decide (k < e.1)).map Prod.fst

variable (m : SortedMap K V) (k : K)

theorem find_eq_some_iff {v : V} : m.find k = some v ↔ (k, v) ∈ m.entries := by
  obtain ⟨entries, sorted⟩ := m
  simp only [find]
  induction entries with
  | nil => simp
  | cons e entries ih =>
    obtain ⟨k', v'⟩ := e
    obtain ⟨hlt, hsorted⟩ := List.pairwise_cons.mp sorted
    rw [List.lookup_cons, List.mem_cons, Prod.mk.injEq]
    by_cases hk : k = k'
    · subst hk
      simp only [beq_self_eq_true, Option.some.injEq, true_and]
      constructor
      · exact fun h => .inl h.symm
      · rintro (h | h)
        · exact h.symm
        · exact absurd (hlt _ h) (lt_irrefl k)
    · rw [beq_eq_false_iff_ne.mpr hk]
      simp only [hk, false_and, false_or]
      exact ih hsorted

theorem find_erase_self : (m.erase k).find k = none := by
  rw [Option.eq_none_iff_forall_ne_some]
  intro v hv
  rw [find_eq_some_iff] at hv
  simpa using (List.mem_filter.mp hv).2

theorem find_erase_ne {k' : K} (hne : k' ≠ k) : (m.erase k).find k' = m.find k' := by
  apply Option.ext
  intro v
  rw [find_eq_some_iff, find_eq_some_iff]
  simp [erase, hne]

/-- A key that is there is erased by no other. -/
theorem eq_of_erase_eq {k' : K} {v : V} (hfind : m.find k = some v) (h : m.erase k' = m.erase k) :
    k' = k := by
  by_contra hne
  have hsome := congrArg (fun m => m.find k) h
  simp only [find_erase_self, find_erase_ne _ _ (Ne.symm hne), hfind] at hsome
  contradiction

theorem find_assign_self (v : V) : (m.assign k v).find k = some v := by
  rw [find_eq_some_iff]
  simp [assign]

theorem find_assign_ne {k' : K} (hne : k' ≠ k) (v : V) : (m.assign k v).find k' = m.find k' := by
  apply Option.ext
  intro v'
  rw [find_eq_some_iff, find_eq_some_iff]
  simp only [assign, List.mem_append, List.mem_cons, List.mem_filter, decide_eq_true_eq, Prod.mk.injEq,
    hne, false_and, false_or]
  constructor
  · rintro (⟨h, -⟩ | ⟨h, -⟩) <;> exact h
  · intro h
    rcases lt_or_gt_of_ne hne with hlt | hlt
    · exact .inl ⟨h, hlt⟩
    · exact .inr ⟨h, hlt⟩

variable {m k} {p : K × V → Bool}

/-- No entry with the property comes earlier. -/
theorem firstWhere_eq_some {v : V} (h : m.firstWhere p = some (k, v)) :
    m.find k = some v ∧ p (k, v) = true ∧ ∀ k' v', m.find k' = some v' → p (k', v') = true → k ≤ k' := by
  obtain ⟨hp, as, bs, hentries, has⟩ := List.find?_eq_some_iff_append.mp h
  refine ⟨?_, hp, fun k' v' hfind hp' => ?_⟩
  · rw [find_eq_some_iff, hentries]
    simp
  · rw [find_eq_some_iff, hentries] at hfind
    have hsorted := m.sorted
    rw [hentries, List.pairwise_append] at hsorted
    rcases List.mem_append.mp hfind with hmem | hmem
    · have hnot := has _ hmem
      rw [hp'] at hnot
      contradiction
    · rcases List.mem_cons.mp hmem with heq | hmem
      · exact (congrArg Prod.fst heq).ge
      · exact ((List.pairwise_cons.mp hsorted.2.1).1 _ hmem).le

theorem firstWhere_eq_none (h : m.firstWhere p = none) {k' : K} {v' : V} (hfind : m.find k' = some v') :
    p (k', v') = false := by
  rw [find_eq_some_iff] at hfind
  simpa using List.find?_eq_none.mp h _ hfind

end SortedMap
