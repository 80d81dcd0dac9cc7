import Nodeoze.Any.Resolve
import Nodeoze.Lib.Replacement

/-!
# `string::find_and_replace_in_place`

The loop looks for the search string from a position on, puts the replacement in its place and goes on
behind the replacement, while the string grows or shrinks under it.  What is before the position is done,
what is behind it has not been touched; the part behind it gets shorter in every turn, as long as the search
string is not empty.
-/

namespace Nodeoze.Any

open Subword Replacement

section

variable {α : Type}

/-- `std::string::replace` -/
def stringReplace (subject : List α) (pos len : Nat) (replace : List α) : List α :=
  subject.take pos ++ (replace ++ subject.drop (pos + len))

/-- What is before the occurrence, and the replacement, are done. -/
theorem stringReplace_append (done rest replace : List α) (len : Nat) {i : Nat} (hi : i ≤ rest.length) :
    stringReplace (done ++ rest) (done.length + i) len replace
        = (done ++ (rest.take i ++ replace)) ++ rest.drop (i + len) ∧
      done.length + i + replace.length = (done ++ (rest.take i ++ replace)).length := by
  constructor
  · unfold stringReplace
    rw [List.take_length_add_append, Nat.add_assoc, List.drop_length_add_append]
    simp only [List.append_assoc]
  · rw [List.length_append, List.length_append, List.length_take, Nat.min_eq_left hi, Nat.add_assoc]

variable [DecidableEq α]

/-- `std::string::find`; `none` is `npos`. -/
def stringFind (subject search : List α) (pos : Nat) : Option Nat :=
  let i := pos + Subword.search search (subject.drop pos)
  if i + search.length ≤ subject.length then some i else none

/-- The loop, with fuel for its turns. -/
def findAndReplaceLoop (search replace : List α) : Nat → List α → Nat → Option (List α)
  | 0, _, _ => none
  | fuel + 1, subject, pos =>
    match stringFind subject search pos with
    | none => some subject
    | some pos =>
      findAndReplaceLoop search replace fuel (stringReplace subject pos search.length replace)
        (pos + replace.length)

/-- `string::find_and_replace_in_place` -/
def findAndReplaceInPlace (fuel : Nat) (subject search replace : List α) : Option (List α) :=
  findAndReplaceLoop search replace fuel subject 0

variable {search replace : List α}

/-- The search from behind what is done finds the first occurrence in what is left. -/
theorem stringFind_spec (hsearch : search ≠ []) (done rest : List α) :
    (∃ i, First search rest 0 i ∧ stringFind (done ++ rest) search done.length = some (done.length + i)) ∨
      stringFind (done ++ rest) search done.length = none ∧ ∀ i, ¬Occurs search rest i := by
  have hdrop : (done ++ rest).drop done.length = rest := List.drop_left' rfl
  unfold stringFind
  rw [hdrop, List.length_append]
  rcases search_spec hsearch rest with hfirst | ⟨hlength, hnone⟩
  · left
    have hle := hfirst.2.1.1
    refine ⟨_, hfirst, if_pos ?_⟩
    omega
  · right
    have hpos : 0 < search.length := List.length_pos_iff.mpr hsearch
    refine ⟨if_neg ?_, hnone⟩
    rw [hlength]
    omega

/-- The loop replaces what is left: the induction is on the fuel, which what is left does not exceed. -/
theorem findAndReplaceLoop_replaces (hsearch : search ≠ []) (fuel : Nat) (done rest : List α)
    (hfuel : rest.length < fuel) :
    ∃ l', Replaced search replace rest l' ∧
      findAndReplaceLoop search replace fuel (done ++ rest) done.length = some (done ++ l') := by
  have hpos : 0 < search.length := List.length_pos_iff.mpr hsearch
  induction fuel generalizing done rest with
  | zero => omega
  | succ fuel ih =>
    rw [findAndReplaceLoop]
    rcases stringFind_spec hsearch done rest with ⟨i, hfirst, hfind⟩ | ⟨hfind, hnone⟩
    · have hle := hfirst.2.1.1
      obtain ⟨hsubject, hbehind⟩ := @stringReplace_append _ done rest replace search.length i (by omega)
      have hshorter : (rest.drop (i + search.length)).length < fuel := by
        rw [List.length_drop]
        omega
      obtain ⟨l', hreplaced, hloop⟩ := ih (done ++ (rest.take i ++ replace)) _ hshorter
      refine ⟨rest.take i ++ (replace ++ l'), .next hfirst hreplaced, ?_⟩
      rw [hfind]
      simp only
      rw [hsubject, hbehind, hloop]
      simp only [List.append_assoc]
    · refine ⟨rest, .rest hnone, ?_⟩
      rw [hfind]

theorem findAndReplaceInPlace_replaces (hsearch : search ≠ []) (subject : List α) :
    ∃ result, Replaced search replace subject result ∧
      ∀ fuel, subject.length < fuel → findAndReplaceInPlace fuel subject search replace = some result := by
  obtain ⟨result, hreplaced, -⟩ :=
    @findAndReplaceLoop_replaces _ _ search replace hsearch (subject.length + 1) [] subject (by omega)
  refine ⟨result, hreplaced, fun fuel hfuel => ?_⟩
  obtain ⟨result', hreplaced', hloop⟩ := @findAndReplaceLoop_replaces _ _ search replace hsearch fuel [] subject hfuel
  rw [hreplaced.unique hreplaced']
  exact hloop

/-- What the pass makes of a string is what the loop makes of it. -/
theorem findAndReplaceInPlace_eq (hsearch : search ≠ []) {subject result : List α}
    (h : Replaced search replace subject result) {fuel : Nat} (hfuel : subject.length < fuel) :
    findAndReplaceInPlace fuel subject search replace = some result := by
  obtain ⟨result', hreplaced, hrun⟩ := @findAndReplaceInPlace_replaces _ _ search replace hsearch subject
  rw [h.unique hreplaced]
  exact hrun fuel hfuel

/-- An empty search string is found again and again. -/
theorem findAndReplaceLoop_empty (fuel : Nat) (subject : List α) {pos : Nat} (hpos : pos ≤ subject.length) :
    findAndReplaceLoop [] replace fuel subject pos = none := by
  induction fuel generalizing subject pos with
  | zero => rfl
  | succ fuel ih =>
    have hzero (l : List α) : Subword.search [] l = 0 := by
      cases l with
      | nil => rfl
      | cons a l => exact if_pos List.nil_prefix
    have hfind : stringFind subject [] pos = some pos := by
      unfold stringFind
      rw [hzero]
      exact if_pos hpos
    rw [findAndReplaceLoop, hfind]
    apply ih
    unfold stringReplace
    rw [List.length_append, List.length_append, List.length_take, Nat.min_eq_left hpos]
    omega

end

/-! ## Unescaping a token -/

/-- The two calls of `any::find`. -/
def unescapeInPlace (fuel : Nat) (token : Key) : Option Key := do
  let token ← findAndReplaceInPlace fuel token (text "~1") (text "/")
  findAndReplaceInPlace fuel token (text "~0") (text "~")

theorem replaced_findAndReplace (a b r : UInt8) (s : Key) : Replaced [a, b] [r] s (findAndReplace a b r s) := by
  induction s using findAndReplace.induct a b with
  | case1 x y rest hpair ih =>
    rw [findAndReplace, if_pos hpair, hpair.1, hpair.2]
    exact ih.front
  | case2 x y rest hpair ih =>
    rw [findAndReplace, if_neg hpair]
    refine ih.cons fun hprefix => hpair ?_
    obtain ⟨hx, hprefix⟩ := List.cons_prefix_cons.mp hprefix
    exact ⟨hx.symm, (List.cons_prefix_cons.mp hprefix).1.symm⟩
  | case3 x => exact .rest fun i hoccurs => absurd hoccurs.1 (by simp)
  | case4 => exact .rest fun i hoccurs => absurd hoccurs.1 (by simp)

theorem length_findAndReplace_le (a b r : UInt8) (s : Key) : (findAndReplace a b r s).length ≤ s.length := by
  induction s using findAndReplace.induct a b with
  | case1 x y rest hpair ih =>
    rw [findAndReplace, if_pos hpair]
    simp only [List.length_cons]
    omega
  | case2 x y rest hpair ih =>
    rw [findAndReplace, if_neg hpair]
    simp only [List.length_cons] at ih ⊢
    omega
  | case3 x => exact Nat.le_refl _
  | case4 => exact Nat.le_refl _

theorem unescapeInPlace_eq {token : Key} {fuel : Nat} (hfuel : token.length < fuel) :
    unescapeInPlace fuel token = some (unescape token) := by
  have hslashes : findAndReplaceInPlace fuel token (text "~1") (text "/")
      = some (findAndReplace tilde 49 slash token) :=
    findAndReplaceInPlace_eq (by decide) (replaced_findAndReplace tilde 49 slash token) hfuel
  have hshorter := length_findAndReplace_le tilde 49 slash token
  have htildes : findAndReplaceInPlace fuel (findAndReplace tilde 49 slash token) (text "~0") (text "~")
      = some (unescape token) :=
    findAndReplaceInPlace_eq (by decide) (replaced_findAndReplace tilde 48 tilde _) (by omega)
  rw [unescapeInPlace, hslashes, Option.bind_eq_bind, Option.bind_some, htildes]

/-- With a search string that is not empty the loop ends, having made one pass from left to right; and the
two calls of `any::find` undo the escaping of every token. -/
theorem replaces_leftToRight {search : Key} (hsearch : search ≠ []) (subject replace : Key) :
    (∃ result, Replaced search replace subject result ∧
      (∀ other, Replaced search replace subject other → other = result) ∧
      ∀ fuel, subject.length < fuel → findAndReplaceInPlace fuel subject search replace = some result) ∧
    ∀ (token : Key) (fuel : Nat), (escape token).length < fuel →
      unescapeInPlace fuel (escape token) = some token := by
  refine ⟨?_, fun token fuel hfuel => ?_⟩
  · obtain ⟨result, hreplaced, hrun⟩ := @findAndReplaceInPlace_replaces _ _ search replace hsearch subject
    exact ⟨result, hreplaced, fun other hother => hother.unique hreplaced, hrun⟩
  · rw [unescapeInPlace_eq hfuel, unescape_escape]

/-- The replacement holds the search string, and occurrences overlap. -/
theorem overlapping_replaced :
    findAndReplaceInPlace 6 (text "aaaaa") (text "aa") (text "baab") = some (text "baabbaaba") ∧
      Replaced (text "aa") (text "baab") (text "aaaaa") (text "baabbaaba") := by
  obtain ⟨⟨result, hreplaced, -, hrun⟩, -⟩ :=
    @replaces_leftToRight (text "aa") (by decide) (text "aaaaa") (text "baab")
  have hvalue : findAndReplaceInPlace 6 (text "aaaaa") (text "aa") (text "baab") = some (text "baabbaaba") := by
    decide
  have hresult := (hrun 6 (by decide)).symm.trans hvalue
  rw [Option.some.inj hresult] at hreplaced
  exact ⟨hvalue, hreplaced⟩

end Nodeoze.Any
