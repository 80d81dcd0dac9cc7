import Mathlib.Data.Finset.Card
import Mathlib.Logic.Function.Basic

/-!
# Votes and majorities

`Cast ν τ` records for every voter and every term the candidate that got the vote.  Two majorities
of the same electorate have a voter in common, so that a term has at most one winner.  A record
only ever grows, and who has won stays so.
-/

namespace Quorum

variable {ν τ : Type}

abbrev Cast (ν τ : Type) := ν → τ → Option ν

/-- Nobody has taken back a vote. -/
def Extends (cast cast' : Cast ν τ) : Prop := ∀ v t c, cast v t = some c → cast' v t = some c

theorem Extends.refl (cast : Cast ν τ) : Extends cast cast := fun _ _ _ h => h

/-- More than half of the electorate have voted for the candidate. -/
def Won (electorate : Finset ν) (cast : Cast ν τ) (c : ν) (t : τ) : Prop :=
  ∃ Q ⊆ electorate, electorate.card < Q.card * 2 ∧ ∀ v ∈ Q, cast v t = some c

theorem Won.mono {electorate : Finset ν} {cast cast' : Cast ν τ} {c : ν} {t : τ}
    (h : Won electorate cast c t) (hext : Extends cast cast') : Won electorate cast' c t := by
  obtain ⟨Q, hsub, hcard, hQ⟩ := h
  exact ⟨Q, hsub, hcard, fun v hv => hext v t c (hQ v hv)⟩

theorem Won.unique [DecidableEq ν] {electorate : Finset ν} {cast : Cast ν τ} {a b : ν} {t : τ}
    (ha : Won electorate cast a t) (hb : Won electorate cast b t) : a = b := by
  obtain ⟨Q, hQ, hQcard, hQa⟩ := ha
  obtain ⟨R, hR, hRcard, hRb⟩ := hb
  obtain ⟨v, hv⟩ := Finset.inter_nonempty_of_card_lt_card_add_card hQ hR (by omega)
  obtain ⟨hvQ, hvR⟩ := Finset.mem_inter.mp hv
  have hsame := (hQa v hvQ).symm.trans (hRb v hvR)
  exact Option.some.inj hsame

variable [DecidableEq ν] [DecidableEq τ]

/-- A vote is cast. -/
def record (cast : Cast ν τ) (v : ν) (t : τ) (c : ν) : Cast ν τ :=
  Function.update cast v (Function.update (cast v) t (some c))

theorem record_self (cast : Cast ν τ) (v : ν) (t : τ) (c : ν) : record cast v t c v t = some c := by
  simp [record]

theorem record_other_term (cast : Cast ν τ) {v : ν} {t t' : τ} (c : ν) (h : t' ≠ t) :
    record cast v t c v t' = cast v t' := by
  simp [record, h]

theorem record_other (cast : Cast ν τ) {v w : ν} (t : τ) (c : ν) (h : w ≠ v) :
    record cast v t c w = cast w := by
  simp [record, h]

/-- A voter who has not voted yet can vote. -/
theorem extends_record {cast : Cast ν τ} {v : ν} {t : τ} (h : cast v t = none) (c : ν) :
    Extends cast (record cast v t c) := by
  intro w t' c' hw
  by_cases hwv : w = v
  · rw [hwv] at hw ⊢
    by_cases ht : t' = t
    · rw [ht, h] at hw
      cases hw
    · rw [record_other_term cast c ht, hw]
  · rw [record_other cast t c hwv, hw]

end Quorum
