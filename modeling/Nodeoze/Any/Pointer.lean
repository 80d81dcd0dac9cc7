import Nodeoze.Any.Basic
import Mathlib.Data.List.TakeWhile

/-!
# Pointers into a value

`any::find` follows a textual pointer: the text is split at slashes, empty pieces are dropped, each
token is unescaped and names a member of an object or, as a number, an element of an array.  A place
in a value is a list of `Sel`; `Found` keeps what `find_t` keeps, with places for the pointers and
iterators.

The second half is about texts that were made from places.  A place can be found again by its text
when no key on the way holds a slash or an escape and no key but the last is empty.
-/

namespace Nodeoze.Any

/-- The bytes of a literal. -/
def text (s : String) : Key := s.toList.map fun c => UInt8.ofNat c.toNat

def slash : UInt8 := 47

def tilde : UInt8 := 126

/-- The token `-`, the place behind the last element of an array. -/
def dash : Key := [45]

/-! ## The string functions -/

/-- The pieces of a text between its slashes. -/
def segments : Key → List Key
  | [] => [[]]
  | c :: cs =>
    if c = slash then [] :: segments cs
    else match segments cs with
      | [] => [[c]]
      | t :: ts => (c :: t) :: ts

/-- `string::split( s, '/' )` -/
def split (s : Key) : List Key := (segments s).filter fun token => !token.isEmpty

/-- `string::find_and_replace_in_place` for a search of two bytes and a replacement of one. -/
def findAndReplace (a b r : UInt8) : Key → Key
  | x :: y :: rest =>
    if x = a ∧ y = b then r :: findAndReplace a b r rest
    else x :: findAndReplace a b r (y :: rest)
  | [x] => [x]
  | [] => []

/-- `~1` to a slash, then `~0` to a tilde. -/
def unescape (token : Key) : Key := findAndReplace tilde 48 tilde (findAndReplace tilde 49 slash token)

def digit (n : Nat) : UInt8 := UInt8.ofNat (48 + n)

def isDigit (c : UInt8) : Bool := decide (48 ≤ c) && decide (c ≤ 57)

def isSpace (c : UInt8) : Bool := c == 32 || (decide (9 ≤ c) && decide (c ≤ 13))

/-- The decimal digits of a number, with enough fuel. -/
def digits : Nat → Nat → Key
  | 0, n => [digit n]
  | fuel + 1, n => if n < 10 then [digit n] else digits fuel (n / 10) ++ [digit (n % 10)]

/-- `std::to_string` -/
def decimal (n : Nat) : Key := digits n n

/-- The number that a text of digits begins with. -/
def number (s : Key) : Option Nat :=
  let ds := s.takeWhile isDigit
  if ds.isEmpty then none else some (ds.foldl (fun n d => n * 10 + (d.toNat - 48)) 0)

/-- `std::stoi`; `none` is an exception. -/
def stoi (s : Key) : Option Int :=
  let value : Option Int :=
    match s.dropWhile isSpace with
    | 45 :: rest => (number rest).map fun n => -(n : Int)
    | 43 :: rest => (number rest).map fun n => (n : Int)
    | rest => (number rest).map fun n => (n : Int)
  value.filter fun i => decide (-2 ^ 31 ≤ i) && decide (i < 2 ^ 31)

/-! ## Places -/

/-- One step to a child. -/
inductive Sel
  | elem (n : Nat)
  | member (k : Key)
  deriving DecidableEq, Repr

def setMember : List (Key × Any) → Key → Any → List (Key × Any)
  | [], _, _ => []
  | (k', v') :: ms, k, v => if k' = k then (k', v) :: ms else (k', v') :: setMember ms k v

def eraseMember : List (Key × Any) → Key → List (Key × Any)
  | [], _ => []
  | (k', v') :: ms, k => if k' = k then ms else (k', v') :: eraseMember ms k

def child? : Any → Sel → Option Any
  | .array xs, .elem n => xs[n]?
  | .object ms, .member k => ms.lookup k
  | _, _ => none

def setChild : Any → Sel → Any → Any
  | .array xs, .elem n, v => .array (xs.set n v)
  | .object ms, .member k, v => .object (setMember ms k v)
  | t, _, _ => t

def eraseChild : Any → Sel → Any
  | .array xs, .elem n => .array (xs.eraseIdx n)
  | .object ms, .member k => .object (eraseMember ms k)
  | t, _ => t

def getAt : List Sel → Any → Option Any
  | [], t => some t
  | s :: place, t => (child? t s).bind (getAt place)

/-- Change the value at a place. -/
def modifyAt : List Sel → (Any → Any) → Any → Any
  | [], f, t => f t
  | s :: place, f, t =>
    match child? t s with
    | none => t
    | some c => setChild t s (modifyAt place f c)

/-! ## `any::find` -/

/-- `any::find_t`.  A child that is not set, or is the end of an array, is `none`. -/
structure Found where
  tokens : List Key
  index : Nat
  valid : Bool
  parent : Option (List Sel)
  child : Option Sel

/-- `token_mismatch_distance` -/
def Found.distance (f : Found) : Nat := f.tokens.length - f.index

/-- The loop of `find`, at `token index` with `parent` at place `place`. -/
def seek (tokens : List Key) : List Key → Nat → Any → List Sel → Found
  | [], index, _, _ => ⟨tokens, index, true, none, none⟩
  | token :: rest, index, parent, place =>
    match parent with
    | .array xs =>
      if unescape token = dash then ⟨tokens, index, true, some place, none⟩
      else match stoi (unescape token) with
        | none => ⟨tokens, index, false, some place, none⟩
        | some i =>
          -- the index is an `std::uint32_t`
          match xs[(i % 2 ^ 32).toNat]? with
          | none => ⟨tokens, index, false, some place, none⟩
          | some x =>
            if rest.isEmpty then ⟨tokens, index + 1, true, some place, some (.elem (i % 2 ^ 32).toNat)⟩
            else seek tokens rest (index + 1) x (place ++ [.elem (i % 2 ^ 32).toNat])
    | .object ms =>
      match ms.lookup (unescape token) with
      | none => ⟨tokens, index, false, some place, none⟩
      | some v =>
        if rest.isEmpty then ⟨tokens, index + 1, true, some place, some (.member (unescape token))⟩
        else seek tokens rest (index + 1) v (place ++ [.member (unescape token)])
    | _ => ⟨tokens, index, false, some place, none⟩

/-- The tokens of a pointer; a slash at its end stands before one empty token. -/
def tokensOf (pointer : Key) : List Key :=
  split pointer ++ if pointer.getLast? = some slash then [[]] else []

/-- `any::find` -/
def find (root : Any) (pointer : Key) : Found :=
  if pointer.isEmpty then ⟨[], 0, true, none, none⟩
  else seek (tokensOf pointer) (tokensOf pointer) 0 root []

/-! ## Texts of places -/

/-- A token is found under its own name. -/
def plainKey (k : Key) : Prop := slash ∉ k ∧ unescape k = k

instance (k : Key) : Decidable (plainKey k) := inferInstanceAs (Decidable (_ ∧ _))

/-- The text of a list of tokens. -/
def render (tokens : List Key) : Key := tokens.flatMap fun t => slash :: t

@[simp] theorem render_nil : render [] = [] := rfl

@[simp] theorem render_cons (t : Key) (ts : List Key) : render (t :: ts) = slash :: t ++ render ts := by
  simp [render]

theorem render_append (ts us : List Key) : render (ts ++ us) = render ts ++ render us := by
  simp [render]

theorem segments_ne_nil (s : Key) : segments s ≠ [] := by
  cases s with
  | nil => simp [segments]
  | cons c cs =>
    unfold segments
    split_ifs
    · simp
    · split <;> simp

theorem segments_slash (s : Key) : segments (slash :: s) = [] :: segments s := by
  simp [segments]

/-- A piece without a slash is the front of the first segment. -/
theorem segments_append (t s : Key) (ht : slash ∉ t) :
    ∃ u us, segments s = u :: us ∧ segments (t ++ s) = (t ++ u) :: us := by
  induction t with
  | nil =>
    cases hs : segments s with
    | nil => exact absurd hs (segments_ne_nil s)
    | cons u us => exact ⟨u, us, rfl, by simp [hs]⟩
  | cons c t ih =>
    have hc : c ≠ slash := fun h => ht (by simp [h])
    obtain ⟨u, us, hs, hts⟩ := ih fun h => ht (by simp [h])
    exact ⟨u, us, hs, by simp [segments, hc, hts]⟩

theorem segments_render (tokens : List Key) (h : ∀ t ∈ tokens, slash ∉ t) :
    segments (render tokens) = [] :: tokens := by
  induction tokens with
  | nil => rfl
  | cons t ts ih =>
    have ih' := ih fun u hu => h u (by simp [hu])
    rw [render_cons, List.cons_append, segments_slash]
    obtain ⟨u, us, hs, hts⟩ := segments_append t (render ts) (h t (by simp))
    rw [ih'] at hs
    obtain ⟨rfl, rfl⟩ := List.cons.inj hs
    rw [hts, List.append_nil]

theorem getLast?_render (tokens : List Key) (t : Key) (ht : slash ∉ t) :
    (render (tokens ++ [t])).getLast? = some slash ↔ t = [] := by
  rw [render_append, render_cons, render_nil, List.append_nil, List.getLast?_append]
  rcases List.eq_nil_or_concat t with rfl | ⟨u, c, rfl⟩
  · simp
  · have hc : c ≠ slash := fun hc => ht (by simp [hc])
    simp [List.getLast?_cons, hc]

/-- The text of a list of tokens has these tokens, but the empty ones before the last. -/
theorem tokensOf_render (tokens : List Key) (t : Key) (hslash : ∀ u ∈ tokens ++ [t], slash ∉ u) :
    tokensOf (render (tokens ++ [t])) = tokens.filter (fun u => !u.isEmpty) ++ [t] := by
  unfold tokensOf split
  rw [segments_render _ hslash]
  by_cases ht : t = []
  · have hlast := (getLast?_render tokens t (hslash t (by simp))).mpr ht
    rw [if_pos hlast]
    simp [ht]
  · have hlast := mt (getLast?_render tokens t (hslash t (by simp))).mp ht
    rw [if_neg hlast]
    simp [ht]

theorem filter_nonempty {tokens : List Key} (h : ∀ u ∈ tokens, u ≠ []) :
    tokens.filter (fun u => !u.isEmpty) = tokens := by
  apply List.filter_eq_self.mpr
  intro u hu
  simpa using h u hu

/-! ## Numbers as tokens -/

theorem digit_toNat {n : Nat} (hn : n < 10) : (digit n).toNat = 48 + n := by
  rw [digit, UInt8.toNat_ofNat_of_lt']
  change 48 + n < 256
  omega

theorem isDigit_iff (c : UInt8) : isDigit c = true ↔ 48 ≤ c.toNat ∧ c.toNat ≤ 57 := by
  simp [isDigit, UInt8.le_iff_toNat_le]

theorem isDigit_digit {n : Nat} (hn : n < 10) : isDigit (digit n) = true := by
  rw [isDigit_iff, digit_toNat hn]
  omega

theorem isDigit_of_mem_digits {fuel n : Nat} (hn : n ≤ fuel) {c : UInt8} (hc : c ∈ digits fuel n) :
    isDigit c = true := by
  induction fuel generalizing n with
  | zero =>
    obtain rfl : c = digit n := by simpa [digits] using hc
    exact isDigit_digit (by omega)
  | succ fuel ih =>
    unfold digits at hc
    split_ifs at hc with hlt
    · obtain rfl : c = digit n := by simpa using hc
      exact isDigit_digit hlt
    · rcases List.mem_append.mp hc with hfront | hlast
      · exact ih (by omega) hfront
      · obtain rfl : c = digit (n % 10) := by simpa using hlast
        exact isDigit_digit (by omega)

theorem foldl_digits {fuel n : Nat} (hn : n ≤ fuel) :
    (digits fuel n).foldl (fun m d => m * 10 + (d.toNat - 48)) 0 = n := by
  induction fuel generalizing n with
  | zero =>
    obtain rfl : n = 0 := by omega
    rfl
  | succ fuel ih =>
    unfold digits
    split_ifs with hlt
    · simp [digit_toNat hlt]
    · rw [List.foldl_append, ih (by omega)]
      simp only [List.foldl_cons, List.foldl_nil, digit_toNat (show n % 10 < 10 by omega)]
      omega

theorem digits_ne_nil (fuel n : Nat) : digits fuel n ≠ [] := by
  cases fuel with
  | zero => simp [digits]
  | succ fuel =>
    unfold digits
    split_ifs <;> simp

theorem isDigit_of_mem_decimal {n : Nat} {c : UInt8} (hc : c ∈ decimal n) : isDigit c = true :=
  isDigit_of_mem_digits (Nat.le_refl n) hc

theorem decimal_ne_nil (n : Nat) : decimal n ≠ [] := digits_ne_nil n n

theorem slash_not_mem_decimal (n : Nat) : slash ∉ decimal n := by
  intro hmem
  exact absurd (isDigit_of_mem_decimal hmem) (by decide)

theorem findAndReplace_of_not_mem {a b r : UInt8} {s : Key} (h : a ∉ s) :
    findAndReplace a b r s = s := by
  induction s with
  | nil => rfl
  | cons x rest ih =>
    have hx : x ≠ a := fun hx => h (by simp [hx])
    have ih' := ih fun hmem => h (by simp [hmem])
    cases rest with
    | nil => rfl
    | cons y rest => simp [findAndReplace, hx, ih']

theorem unescape_of_not_mem {s : Key} (h : tilde ∉ s) : unescape s = s := by
  rw [unescape, findAndReplace_of_not_mem h, findAndReplace_of_not_mem h]

theorem plainKey_decimal (n : Nat) : plainKey (decimal n) := by
  refine ⟨slash_not_mem_decimal n, unescape_of_not_mem ?_⟩
  intro hmem
  exact absurd (isDigit_of_mem_decimal hmem) (by decide)

theorem plainKey_dash : plainKey dash := by decide

theorem decimal_ne_dash (n : Nat) : decimal n ≠ dash := by
  intro heq
  have hmem : (45 : UInt8) ∈ decimal n := by
    rw [heq]
    exact List.mem_singleton.mpr rfl
  exact absurd (isDigit_of_mem_decimal hmem) (by decide)

theorem number_decimal (n : Nat) : number (decimal n) = some n := by
  have htake : (decimal n).takeWhile isDigit = decimal n := by
    apply List.takeWhile_eq_self_iff.mpr
    intro c hc
    exact isDigit_of_mem_decimal hc
  have hne : (decimal n).isEmpty = false := by
    cases hd : decimal n with
    | nil => exact absurd hd (decimal_ne_nil n)
    | cons _ _ => rfl
  have hfold : (decimal n).foldl (fun m d => m * 10 + (d.toNat - 48)) 0 = n :=
    foldl_digits (Nat.le_refl n)
  simp [number, htake, hne, hfold]

/-- What `find` reads from the text of a number. -/
theorem stoi_decimal_eq (n : Nat) :
    stoi (decimal n) = if n < 2 ^ 31 then some (n : Int) else none := by
  have hnum := number_decimal n
  cases hd : decimal n with
  | nil => exact absurd hd (decimal_ne_nil n)
  | cons c cs =>
    have hmem : c ∈ decimal n := by simp [hd]
    have hrange := (isDigit_iff c).mp (isDigit_of_mem_decimal hmem)
    have hspace : isSpace c = false := by
      rw [← Bool.not_eq_true]
      intro hsp
      simp only [isSpace, Bool.or_eq_true, beq_iff_eq, Bool.and_eq_true, decide_eq_true_eq,
        UInt8.le_iff_toNat_le] at hsp
      rcases hsp with rfl | ⟨-, hle⟩
      · exact absurd hrange.1 (by decide)
      · have h13 : (13 : UInt8).toNat = 13 := rfl
        omega
    have hminus : c ≠ 45 := by
      rintro rfl
      exact absurd hrange.1 (by decide)
    have hplus : c ≠ 43 := by
      rintro rfl
      exact absurd hrange.1 (by decide)
    rw [hd] at hnum
    unfold stoi
    rw [List.dropWhile_cons_of_neg (by simp [hspace])]
    split
    · rename_i rest heq
      exact absurd (List.cons.inj heq).1 hminus
    · rename_i rest heq
      exact absurd (List.cons.inj heq).1 hplus
    · have hlow : (-2147483648 : Int) ≤ n := by omega
      rw [hnum]
      by_cases hn : n < 2 ^ 31
      · have hhigh : (n : Int) < 2147483648 := by omega
        rw [if_pos hn]
        simp [Option.filter, hlow, hhigh]
      · have hhigh : ¬(n : Int) < 2147483648 := by omega
        rw [if_neg hn]
        simp [Option.filter, hlow, hhigh]

theorem stoi_decimal {n : Nat} (hn : n < 2 ^ 31) : stoi (decimal n) = some (n : Int) := by
  rw [stoi_decimal_eq, if_pos hn]

end Nodeoze.Any
