import Nodeoze.Any.Pointer

/-!
# Resolving pointers

The pointer to a place writes a slash and an escaped token for each step.  A token names the member
with that key of an object, or, as a decimal number, an element of an array; a dash names the place
behind the elements, and nothing can follow it.

`find` reads a pointer in its own way: tokens that are empty are dropped unless they are at the end,
an index is what `std::stoi` makes of the token, and the dash ends the pointer wherever it stands.
`find_resolves_iff` says when that is the same.
-/

namespace Nodeoze.Any

/-! ## Texts -/

def escape (k : Key) : Key :=
  k.flatMap fun c => if c = tilde then [tilde, 48] else if c = slash then [tilde, 49] else [c]

def pointer (path : List Key) : Key := render (path.map escape)

theorem findAndReplace_cons_ne {a b r x : UInt8} (h : x ≠ a) (rest : Key) :
    findAndReplace a b r (x :: rest) = x :: findAndReplace a b r rest := by
  cases rest with
  | nil => rfl
  | cons y rest => simp [findAndReplace, h]

theorem findAndReplace_pair (a b r : UInt8) (rest : Key) :
    findAndReplace a b r (a :: b :: rest) = r :: findAndReplace a b r rest := by
  simp [findAndReplace]

theorem findAndReplace_pair_ne {a b r x : UInt8} (hb : x ≠ b) (ha : x ≠ a) (rest : Key) :
    findAndReplace a b r (a :: x :: rest) = a :: x :: findAndReplace a b r rest := by
  rw [findAndReplace, if_neg fun h => hb h.2, findAndReplace_cons_ne ha]

theorem replace_slashes (k : Key) :
    findAndReplace tilde 49 slash (escape k)
      = k.flatMap fun c => if c = tilde then [tilde, 48] else [c] := by
  induction k with
  | nil => rfl
  | cons c k ih =>
    rw [escape, List.flatMap_cons, List.flatMap_cons, ← ih]
    by_cases htilde : c = tilde
    · rw [if_pos htilde, if_pos htilde]
      exact findAndReplace_pair_ne (by decide) (by decide) _
    · rw [if_neg htilde, if_neg htilde]
      by_cases hs : c = slash
      · rw [if_pos hs, hs]
        exact findAndReplace_pair _ _ _ _
      · rw [if_neg hs]
        exact findAndReplace_cons_ne htilde _

theorem replace_tildes (k : Key) :
    findAndReplace tilde 48 tilde (k.flatMap fun c => if c = tilde then [tilde, 48] else [c]) = k := by
  induction k with
  | nil => rfl
  | cons c k ih =>
    rw [List.flatMap_cons]
    by_cases htilde : c = tilde
    · rw [if_pos htilde, htilde]
      exact (findAndReplace_pair _ _ _ _).trans (congrArg (tilde :: ·) ih)
    · rw [if_neg htilde]
      exact (findAndReplace_cons_ne htilde _).trans (congrArg (c :: ·) ih)

theorem unescape_escape (k : Key) : unescape (escape k) = k := by
  rw [unescape, replace_slashes, replace_tildes]

theorem slash_not_mem_escape (k : Key) : slash ∉ escape k := by
  intro hmem
  obtain ⟨c, -, hc⟩ := List.mem_flatMap.mp hmem
  by_cases htilde : c = tilde
  · rw [if_pos htilde] at hc
    exact absurd hc (by decide)
  · rw [if_neg htilde] at hc
    by_cases hs : c = slash
    · rw [if_pos hs] at hc
      exact absurd hc (by decide)
    · rw [if_neg hs] at hc
      exact hs (List.mem_singleton.mp hc).symm

theorem escape_eq_nil (k : Key) : escape k = [] ↔ k = [] := by
  constructor
  · intro h
    rw [← unescape_escape k, h]
    rfl
  · rintro rfl
    rfl

/-! ## What a path leads to -/

/-- A value, or the end of an array. -/
inductive Target
  | value (place : List Sel)
  | behind (place : List Sel)
  deriving DecidableEq, Repr

def Target.place : Target → List Sel
  | .value place => place
  | .behind place => place

/-- Follow tokens from the value at a place.  `index` reads the index of an element; `anywhere` lets a
dash stand before other tokens. -/
def follow (index : Key → Option Nat) (anywhere : Bool) : List Key → Any → List Sel → Option Target
  | [], _, place => some (.value place)
  | token :: rest, .array xs, place =>
    if token = dash then if anywhere || rest.isEmpty then some (.behind place) else none
    else match index token with
      | none => none
      | some n => match xs[n]? with
        | none => none
        | some x => follow index anywhere rest x (place ++ [.elem n])
  | token :: rest, .object ms, place =>
    match ms.lookup token with
    | none => none
    | some v => follow index anywhere rest v (place ++ [.member token])
  | _, _, _ => none

/-- A number in decimal digits, without leading zeros. -/
def decimalIndex (token : Key) : Option Nat := (number token).filter fun n => decimal n = token

/-- What a path leads to. -/
def resolve (path : List Key) (d : Any) : Option Target := follow decimalIndex false path d []

/-- The index that `find` reads. -/
def stoiIndex (token : Key) : Option Nat := (stoi token).map fun i => (i % 2 ^ 32).toNat

/-- What a path leads to when tokens are read as `find` reads them. -/
def skim (path : List Key) (d : Any) : Option Target := follow stoiIndex true path d []

/-- A path without its empty tokens, but for the last. -/
def squeeze (path : List Key) : List Key :=
  path.dropLast.filter (fun t => !t.isEmpty) ++ path.getLast?.toList

/-- What `find_t` points to. -/
def Found.designated (f : Found) : Option Target :=
  if f.valid then
    match f.parent, f.child with
    | none, _ => some (.value [])
    | some place, some s => some (.value (place ++ [s]))
    | some place, none => some (.behind place)
  else none

/-- The pointer to a path is valid where the path leads to something, and points to just that. -/
def Resolves (d : Any) (path : List Key) : Prop :=
  ((find d (pointer path)).valid = true ↔ (resolve path d).isSome) ∧
    ((find d (pointer path)).valid = true → (find d (pointer path)).designated = resolve path d)

instance (d : Any) (path : List Key) : Decidable (Resolves d path) :=
  inferInstanceAs (Decidable ((_ = true ↔ _ = true) ∧ (_ = true → _ = _)))

/-- A path that leads to something has no empty token before the last and no index from `2 ^ 31` on;
one that leads nowhere does not lead anywhere either when it is skimmed. -/
def ReadRight (d : Any) (path : List Key) : Prop :=
  match resolve path d with
  | some target => (∀ t ∈ path.dropLast, t ≠ []) ∧ ∀ n, .elem n ∈ target.place → n < 2 ^ 31
  | none => skim (squeeze path) d = none

/-! ## How `find` reads a path -/

theorem designated_seek (tokens : List Key) {path : List Key} (hpath : path ≠ []) (index : Nat)
    (t : Any) (place : List Sel) :
    (seek tokens (path.map escape) index t place).designated = follow stoiIndex true path t place := by
  induction path generalizing index t place with
  | nil => exact absurd rfl hpath
  | cons token rest ih =>
    rw [List.map_cons]
    have hnext : ∀ (x : Any) (s : Sel),
        (if (rest.map escape).isEmpty then (⟨tokens, index + 1, true, some place, some s⟩ : Found)
          else seek tokens (rest.map escape) (index + 1) x (place ++ [s])).designated
          = follow stoiIndex true rest x (place ++ [s]) := by
      intro x s
      cases rest with
      | nil => simp [Found.designated, follow]
      | cons u rest => exact ih (by simp) _ _ _
    cases t with
    | array xs =>
      simp only [seek, follow, unescape_escape, stoiIndex]
      by_cases hdash : token = dash
      · rw [if_pos hdash, if_pos hdash]
        rfl
      · rw [if_neg hdash, if_neg hdash]
        cases stoi token with
        | none => rfl
        | some i =>
          simp only [Option.map_some]
          cases hx : xs[(i % 2 ^ 32).toNat]? with
          | none => rfl
          | some x => exact hnext x _
    | object ms =>
      simp only [seek, follow, unescape_escape]
      cases ms.lookup token with
      | none => rfl
      | some v => exact hnext v _
    | _ => rfl

theorem squeeze_concat (path : List Key) (t : Key) :
    squeeze (path ++ [t]) = path.filter (fun u => !u.isEmpty) ++ [t] := by
  simp [squeeze]

theorem squeeze_map_escape (path : List Key) : squeeze (path.map escape) = (squeeze path).map escape := by
  rcases List.eq_nil_or_concat' path with rfl | ⟨path, t, rfl⟩
  · rfl
  · have hfilter : (path.map escape).filter (fun u => !u.isEmpty)
        = (path.filter fun u => !u.isEmpty).map escape := by
      rw [List.filter_map]
      congr 1
      apply List.filter_congr
      intro u _
      rw [Function.comp_apply, Bool.eq_iff_iff]
      simp [escape_eq_nil]
    rw [List.map_append, List.map_singleton, squeeze_concat, squeeze_concat, hfilter,
      List.map_append, List.map_singleton]

/-- `find` goes through the tokens that are left of the path. -/
theorem find_pointer_concat (d : Any) (path : List Key) (t : Key) :
    find d (pointer (path ++ [t])) =
      seek ((squeeze (path ++ [t])).map escape) ((squeeze (path ++ [t])).map escape) 0 d [] := by
  have hslash : ∀ u ∈ path.map escape ++ [escape t], slash ∉ u := by
    intro u hu
    rw [← List.map_singleton, ← List.map_append] at hu
    obtain ⟨k, -, rfl⟩ := List.mem_map.mp hu
    exact slash_not_mem_escape k
  have htokens : tokensOf (pointer (path ++ [t])) = (squeeze (path ++ [t])).map escape := by
    rw [pointer, List.map_append, List.map_singleton, tokensOf_render _ _ hslash, ← squeeze_concat,
      ← squeeze_map_escape, List.map_append, List.map_singleton]
  have hne : (pointer (path ++ [t])).isEmpty = false := by
    simp [pointer, render]
  rw [find, hne, if_neg (by simp), htokens]

/-- `find` skims what is left of the path. -/
theorem designated_find (d : Any) (path : List Key) :
    (find d (pointer path)).designated = skim (squeeze path) d := by
  rcases List.eq_nil_or_concat' path with rfl | ⟨path, t, rfl⟩
  · rfl
  · rw [find_pointer_concat]
    exact designated_seek _ (by simp [squeeze_concat]) _ _ _

/-! ## The two readings -/

theorem decimalIndex_eq_some {token : Key} {n : Nat} :
    decimalIndex token = some n ↔ token = decimal n := by
  constructor
  · intro h
    have hdecimal : decimal n = token := by simpa using (Option.filter_eq_some_iff.mp h).2
    exact hdecimal.symm
  · rintro rfl
    simp [decimalIndex, number_decimal]

theorem stoiIndex_decimal (n : Nat) :
    stoiIndex (decimal n) = if n < 2 ^ 31 then some n else none := by
  rw [stoiIndex, stoi_decimal_eq]
  by_cases hn : n < 2 ^ 31
  · have hmod : ((n : Int) % 2 ^ 32).toNat = n := by omega
    rw [if_pos hn, if_pos hn, Option.map_some, hmod]
  · rw [if_neg hn, if_neg hn, Option.map_none]

section Follow

variable {index : Key → Option Nat} {anywhere : Bool}

/-- What following one more token comes to, where it does not come to an end. -/
theorem follow_cons {token : Key} {rest : List Key} {t : Any} {place : List Sel} {target : Target}
    (h : follow index anywhere (token :: rest) t place = some target) :
    (∃ xs, t = .array xs ∧ token = dash ∧ (anywhere || rest.isEmpty) = true ∧
        target = .behind place) ∨
    (∃ xs n x, t = .array xs ∧ token ≠ dash ∧ index token = some n ∧ xs[n]? = some x ∧
        follow index anywhere rest x (place ++ [.elem n]) = some target) ∨
    (∃ ms v, t = .object ms ∧ ms.lookup token = some v ∧
        follow index anywhere rest v (place ++ [.member token]) = some target) := by
  cases t with
  | array xs =>
    rw [follow] at h
    split_ifs at h with hdash hend
    · exact .inl ⟨xs, rfl, hdash, hend, (Option.some.inj h).symm⟩
    · cases hn : index token with
      | none => simp [hn] at h
      | some n =>
        cases hx : xs[n]? with
        | none => simp [hn, hx] at h
        | some x => exact .inr (.inl ⟨xs, n, x, rfl, hdash, rfl, hx, by simpa [hn, hx] using h⟩)
  | object ms =>
    rw [follow] at h
    cases hv : ms.lookup token with
    | none => simp [hv] at h
    | some v => exact .inr (.inr ⟨ms, v, rfl, hv, by simpa [hv] using h⟩)
  | _ => simp [follow] at h

theorem subset_place {path : List Key} {t : Any} {place : List Sel} {target : Target}
    (h : follow index anywhere path t place = some target) : place ⊆ target.place := by
  induction path generalizing t place with
  | nil =>
    obtain rfl : Target.value place = target := Option.some.inj h
    exact List.Subset.refl _
  | cons token rest ih =>
    rcases follow_cons h with ⟨xs, -, -, -, rfl⟩ | ⟨xs, n, x, -, -, -, -, hrest⟩ | ⟨ms, v, -, -, hrest⟩
    · exact List.Subset.refl _
    · exact fun s hs => ih hrest (by simp [hs])
    · exact fun s hs => ih hrest (by simp [hs])

/-- How many tokens a target takes. -/
def Target.size : Target → Nat
  | .value place => place.length
  | .behind place => place.length + 1

theorem size_le {path : List Key} {t : Any} {place : List Sel} {target : Target}
    (h : follow index anywhere path t place = some target) :
    target.size ≤ place.length + path.length := by
  induction path generalizing t place with
  | nil =>
    obtain rfl : Target.value place = target := Option.some.inj h
    exact Nat.le_refl _
  | cons token rest ih =>
    rcases follow_cons h with ⟨xs, -, -, -, rfl⟩ | ⟨xs, n, x, -, -, -, -, hrest⟩ | ⟨ms, v, -, -, hrest⟩
    · simp [Target.size]
    · have hle := ih hrest
      simp only [List.length_append, List.length_cons, List.length_nil] at hle ⊢
      omega
    · have hle := ih hrest
      simp only [List.length_append, List.length_cons, List.length_nil] at hle ⊢
      omega

end Follow

/-- A path that is followed to its end takes all its tokens. -/
theorem size_eq {index : Key → Option Nat} {path : List Key} {t : Any} {place : List Sel}
    {target : Target} (h : follow index false path t place = some target) :
    target.size = place.length + path.length := by
  induction path generalizing t place with
  | nil =>
    obtain rfl : Target.value place = target := Option.some.inj h
    exact rfl
  | cons token rest ih =>
    rcases follow_cons h with ⟨xs, -, -, hend, rfl⟩ | ⟨xs, n, x, -, -, -, -, hrest⟩ | ⟨ms, v, -, -, hrest⟩
    · obtain rfl : rest = [] := by simpa using hend
      simp [Target.size]
    · have heq := ih hrest
      simp only [List.length_append, List.length_cons, List.length_nil] at heq ⊢
      omega
    · have heq := ih hrest
      simp only [List.length_append, List.length_cons, List.length_nil] at heq ⊢
      omega

theorem skim_of_resolve {path : List Key} {t : Any} {place : List Sel} {target : Target}
    (h : follow decimalIndex false path t place = some target)
    (hsmall : ∀ n, .elem n ∈ target.place → n < 2 ^ 31) :
    follow stoiIndex true path t place = some target := by
  induction path generalizing t place with
  | nil => exact h
  | cons token rest ih =>
    rcases follow_cons h with ⟨xs, rfl, hdash, -, rfl⟩ | ⟨xs, n, x, rfl, hdash, hn, hx, hrest⟩ |
      ⟨ms, v, rfl, hv, hrest⟩
    · simp [follow, hdash]
    · have hlt : n < 2 ^ 31 := hsmall n (subset_place hrest (by simp))
      obtain rfl := decimalIndex_eq_some.mp hn
      have hread : stoiIndex (decimal n) = some n := by rw [stoiIndex_decimal, if_pos hlt]
      simp [follow, hdash, hread, hx, ih hrest]
    · simp [follow, hv, ih hrest]

/-- Both readings end at one target only by small indices. -/
theorem small_of_skim {path : List Key} {t : Any} {place : List Sel} {target : Target}
    (h : follow decimalIndex false path t place = some target)
    (hskim : follow stoiIndex true path t place = some target)
    (hplace : ∀ n, .elem n ∈ place → n < 2 ^ 31) : ∀ n, .elem n ∈ target.place → n < 2 ^ 31 := by
  induction path generalizing t place with
  | nil =>
    obtain rfl : Target.value place = target := Option.some.inj h
    exact hplace
  | cons token rest ih =>
    rcases follow_cons h with ⟨xs, rfl, hdash, -, rfl⟩ | ⟨xs, n, x, rfl, hdash, hn, hx, hrest⟩ |
      ⟨ms, v, rfl, hv, hrest⟩
    · exact hplace
    · obtain rfl := decimalIndex_eq_some.mp hn
      have hlt : n < 2 ^ 31 := by
        by_contra hge
        have hread : stoiIndex (decimal n) = none := by rw [stoiIndex_decimal, if_neg hge]
        simp [follow, hdash, hread] at hskim
      have hread : stoiIndex (decimal n) = some n := by rw [stoiIndex_decimal, if_pos hlt]
      simp only [follow, if_neg hdash, hread, hx] at hskim
      apply ih hrest hskim
      intro m hm
      rcases List.mem_append.mp hm with hin | hin
      · exact hplace m hin
      · obtain rfl : m = n := by simpa using hin
        exact hlt
    · simp only [follow, hv] at hskim
      apply ih hrest hskim
      intro m hm
      exact hplace m (by simpa using hm)

theorem squeeze_eq_self {path : List Key} (h : ∀ t ∈ path.dropLast, t ≠ []) : squeeze path = path := by
  rcases List.eq_nil_or_concat' path with rfl | ⟨path, t, rfl⟩
  · rfl
  · rw [squeeze_concat, filter_nonempty]
    simpa using h

theorem nonempty_of_length_squeeze {path : List Key} (h : path.length ≤ (squeeze path).length) :
    ∀ t ∈ path.dropLast, t ≠ [] := by
  rcases List.eq_nil_or_concat' path with rfl | ⟨path, t, rfl⟩
  · simp
  · rw [squeeze_concat] at h
    have hle : path.length ≤ (path.filter fun u => !u.isEmpty).length := by simpa using h
    have heq : (path.filter fun u => !u.isEmpty) = path :=
      List.filter_sublist.eq_of_length_le hle
    intro u hu
    have hmem : u ∈ path := by simpa using hu
    simpa using List.filter_eq_self.mp heq u hmem

/-- A path can be read: no token but the last is empty, and the indices fit an `int`. -/
def Legible (path : List Key) (place : List Sel) : Prop :=
  (∀ t ∈ path.dropLast, t ≠ []) ∧ ∀ n, .elem n ∈ place → n < 2 ^ 31

/-- Where a path leads to something, `find` points there just when it can read the path. -/
theorem designated_iff_legible {d : Any} {path : List Key} {target : Target}
    (h : resolve path d = some target) :
    (find d (pointer path)).designated = some target ↔ Legible path target.place := by
  have hsize := size_eq h
  simp only [List.length_nil, Nat.zero_add] at hsize
  rw [designated_find]
  constructor
  · intro hskim
    have hle := size_le hskim
    have hne := @nonempty_of_length_squeeze path (by simp at hle; omega)
    rw [squeeze_eq_self hne] at hskim
    exact ⟨hne, small_of_skim h hskim (by simp)⟩
  · rintro ⟨hne, hsmall⟩
    rw [squeeze_eq_self hne]
    exact skim_of_resolve h hsmall

/-! ### The parent of what a path names -/

/-- `find` at the last token, with the value before it at `P`. -/
theorem seek_init {init : List Key} {t : Any} {place P : List Sel}
    (h : follow stoiIndex true init t place = some (.value P)) (tokens : List Key) (token : Key)
    (index : Nat) :
    ∃ Q x, P = place ++ Q ∧ getAt Q t = some x ∧
      seek tokens ((init ++ [token]).map escape) index t place
        = seek tokens [escape token] (index + init.length) x P := by
  induction init generalizing t place index with
  | nil =>
    cases h
    exact ⟨[], t, by simp, rfl, rfl⟩
  | cons u init ih =>
    have hindex : index + (u :: init).length = index + 1 + init.length := by
      rw [List.length_cons]
      omega
    have hmore : ((init ++ [token]).map escape).isEmpty = false := by simp
    rcases follow_cons h with ⟨xs, -, -, -, htarget⟩ | ⟨xs, n, x, rfl, hdash, hn, hx, hrest⟩ |
      ⟨ms, v, rfl, hv, hrest⟩
    · cases htarget
    · obtain ⟨Q, y, rfl, hy, hseek⟩ := ih hrest (index + 1)
      obtain ⟨i, hi, rfl⟩ := Option.map_eq_some_iff.mp hn
      refine ⟨.elem (i % 2 ^ 32).toNat :: Q, y, List.append_assoc _ _ _, ?_, ?_⟩
      · rw [getAt, child?, hx, Option.bind_some, hy]
      · rw [hindex, ← hseek]
        simp only [List.cons_append, List.map_cons, seek, unescape_escape, if_neg hdash, hi, hx, hmore]
        rfl
    · obtain ⟨Q, y, rfl, hy, hseek⟩ := ih hrest (index + 1)
      refine ⟨.member u :: Q, y, List.append_assoc _ _ _, ?_, ?_⟩
      · rw [getAt, child?, hv, Option.bind_some, hy]
      · rw [hindex, ← hseek]
        simp only [List.cons_append, List.map_cons, seek, unescape_escape, hv, hmore]
        rfl

theorem seek_last_parent (tokens : List Key) (u : Key) (index : Nat) (x : Any) (place : List Sel) :
    (seek tokens [u] index x place).parent = some place := by
  unfold seek
  split
  · split
    · rfl
    split
    · rfl
    split
    · rfl
    · rfl
  · split
    · rfl
    · rfl
  · rfl

/-- A parent that is as deep as it can be was reached by all the tokens before the last. -/
theorem follow_of_parent {init : List Key} {t : Any} {place P : List Sel} {tokens : List Key}
    {token : Key} {index : Nat}
    (h : (seek tokens ((init ++ [token]).map escape) index t place).parent = some P) :
    P.length ≤ place.length + init.length ∧
      (P.length = place.length + init.length → follow stoiIndex true init t place = some (.value P)) := by
  induction init generalizing t place index with
  | nil =>
    obtain rfl := Option.some.inj ((seek_last_parent tokens (escape token) index t place).symm.trans h)
    exact ⟨Nat.le_refl _, fun _ => rfl⟩
  | cons u init ih =>
    have hstop : ∀ {C : Prop}, some place = some P →
        P.length ≤ place.length + (u :: init).length ∧
          (P.length = place.length + (u :: init).length → C) := by
      intro C hP
      obtain rfl := Option.some.inj hP
      rw [List.length_cons]
      exact ⟨by omega, by omega⟩
    have hdeeper : ∀ {x : Any} {s : Sel},
        (seek tokens ((init ++ [token]).map escape) (index + 1) x (place ++ [s])).parent = some P →
        P.length ≤ place.length + (u :: init).length ∧
          (P.length = place.length + (u :: init).length →
            follow stoiIndex true init x (place ++ [s]) = some (.value P)) := by
      intro x s hseek
      obtain ⟨hle, hfollow⟩ := ih hseek
      rw [List.length_append, List.length_singleton] at hle hfollow
      rw [List.length_cons]
      exact ⟨by omega, fun heq => hfollow (by omega)⟩
    have hmore : ((init ++ [token]).map escape).isEmpty = false := by simp
    cases t with
    | array xs =>
      simp only [List.cons_append, List.map_cons, seek, unescape_escape, hmore] at h
      by_cases hdash : u = dash
      · rw [if_pos hdash] at h
        exact hstop h
      rw [if_neg hdash] at h
      simp only [follow, if_neg hdash, stoiIndex]
      cases hi : stoi u with
      | none =>
        rw [hi] at h
        exact hstop h
      | some i =>
        simp only [hi] at h
        simp only [Option.map_some]
        cases hx : xs[(i % 2 ^ 32).toNat]? with
        | none =>
          simp only [hx] at h
          exact hstop h
        | some x =>
          simp only [hx] at h ⊢
          exact hdeeper h
    | object ms =>
      simp only [List.cons_append, List.map_cons, seek, unescape_escape, hmore] at h
      cases hv : ms.lookup u with
      | none =>
        rw [hv] at h
        exact hstop h
      | some v =>
        rw [hv] at h
        simp only [follow, hv]
        exact hdeeper h
    | _ => exact hstop h

theorem legible_init {init : List Key} {token : Key} {place : List Sel} (h : Legible (init ++ [token]) place) :
    squeeze (init ++ [token]) = init ++ [token] ∧ Legible init place := by
  refine ⟨squeeze_eq_self h.1, fun u hu => h.1 u ?_, h.2⟩
  rw [List.dropLast_concat]
  exact List.dropLast_subset _ hu

/-- Where the tokens before the last lead to a value, that is the parent which `find` sets just when it can
read the path. -/
theorem parent_iff_legible {d : Any} {init : List Key} {token : Key} {place : List Sel}
    (h : resolve init d = some (.value place)) :
    (find d (pointer (init ++ [token]))).parent = some place ↔ Legible (init ++ [token]) place := by
  have hsize := size_eq h
  simp only [Target.size, List.length_nil, Nat.zero_add] at hsize
  rw [find_pointer_concat]
  constructor
  · intro hparent
    have hparent' := hparent
    rw [squeeze_concat] at hparent'
    have hlength := (follow_of_parent hparent').1
    rw [List.length_nil, Nat.zero_add, hsize] at hlength
    have hne := @nonempty_of_length_squeeze (init ++ [token]) (by
      rw [squeeze_concat, List.length_append, List.length_append]
      omega)
    rw [squeeze_eq_self hne] at hparent
    have hskim := (follow_of_parent hparent).2 (by rw [List.length_nil, Nat.zero_add, hsize])
    exact ⟨hne, small_of_skim h hskim (by simp)⟩
  · intro hlegible
    have hskim := skim_of_resolve h hlegible.2
    rw [(legible_init hlegible).1]
    obtain ⟨Q, x, hQ, -, hseek⟩ := seek_init hskim ((init ++ [token]).map escape) token 0
    rw [hseek, seek_last_parent, hQ]

/-- What `find` returns there. -/
theorem find_legible {d : Any} {init : List Key} {token : Key} {place : List Sel}
    (h : resolve init d = some (.value place)) (hlegible : Legible (init ++ [token]) place) :
    ∃ x, getAt place d = some x ∧
      find d (pointer (init ++ [token]))
        = seek ((init ++ [token]).map escape) [escape token] init.length x place := by
  have hskim := skim_of_resolve h hlegible.2
  obtain ⟨Q, x, hQ, hx, hseek⟩ := seek_init hskim ((init ++ [token]).map escape) token 0
  rw [List.nil_append] at hQ
  subst hQ
  refine ⟨x, hx, ?_⟩
  rw [find_pointer_concat, (legible_init hlegible).1, hseek, Nat.zero_add]

/-- `find` resolves the pointer to a path just when it reads the path right. -/
theorem find_resolves_iff (d : Any) (path : List Key) : Resolves d path ↔ ReadRight d path := by
  have hvalid : (find d (pointer path)).valid = true ↔ (skim (squeeze path) d).isSome := by
    rw [← designated_find, Found.designated]
    cases hv : (find d (pointer path)).valid with
    | false => simp
    | true =>
      simp only [if_true, true_iff]
      split <;> rfl
  unfold Resolves ReadRight
  rw [hvalid, designated_find]
  cases hres : resolve path d with
  | none =>
    constructor
    · rintro ⟨hsome, -⟩
      simpa using hsome
    · intro hnone
      simp [hnone]
  | some target =>
    have hreads := designated_iff_legible hres
    rw [designated_find] at hreads
    constructor
    · rintro ⟨hsome, heq⟩
      exact hreads.mp (heq (hsome.mpr rfl))
    · intro hlegible
      rw [hreads.mpr hlegible]
      simp

/-- An empty key before another, a dash before another token, and a text that only begins like a
number. -/
theorem find_misreads :
    ¬ Resolves (.object [([], .object [(text "a", .null)])]) [[], text "a"] ∧
    ¬ Resolves (.array [.null]) [dash, text "a"] ∧
    ¬ Resolves (.array [.null, .null]) [text "1x"] := by
  decide +kernel

end Nodeoze.Any
