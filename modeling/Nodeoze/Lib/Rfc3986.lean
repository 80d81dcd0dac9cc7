import Mathlib.Data.List.Basic
import Mathlib.Data.List.TakeWhile
import Mathlib.Tactic.Common

/-!
# Resource identifiers

The components of a URI, the text that is made of them, and the characters that each may have.  A `%`
begins an encoded byte everywhere.  `split` finds the components again: each ends where a character
comes that it cannot have.
-/

namespace Rfc3986

abbrev Text := List UInt8

/-! ## Characters -/

def isAlpha (b : UInt8) : Bool := decide (65 ≤ b ∧ b ≤ 90) || decide (97 ≤ b ∧ b ≤ 122)

def isDigit (b : UInt8) : Bool := decide (48 ≤ b ∧ b ≤ 57)

def isHex (b : UInt8) : Bool :=
  isDigit b || decide (65 ≤ b ∧ b ≤ 70) || decide (97 ≤ b ∧ b ≤ 102)

def isUnreserved (b : UInt8) : Bool := isAlpha b || isDigit b || [45, 46, 95, 126].contains b

def isSubDelim (b : UInt8) : Bool := [33, 36, 38, 39, 40, 41, 42, 43, 44, 59, 61].contains b

def isSchemeByte (b : UInt8) : Bool := isAlpha b || isDigit b || [43, 45, 46].contains b

def isNameByte (b : UInt8) : Bool := isUnreserved b || isSubDelim b

def isUserinfoByte (b : UInt8) : Bool := isNameByte b || b == 58

def isPathByte (b : UInt8) : Bool := isUserinfoByte b || b == 64

def isQueryByte (b : UInt8) : Bool := isPathByte b || [47, 63].contains b

def percent : UInt8 := 37

def numberSign : UInt8 := 35

def slash : UInt8 := 47

def colon : UInt8 := 58

def question : UInt8 := 63

def at_ : UInt8 := 64

/-! ## Encoded bytes -/

/-- Characters of a kind, and bytes that are encoded. -/
inductive Encoded (ok : UInt8 → Bool) : Text → Prop
  | nil : Encoded ok []
  | char {b : UInt8} {t : Text} (hb : b ≠ percent) (hok : ok b = true) (ht : Encoded ok t) : Encoded ok (b :: t)
  | byte {h l : UInt8} {t : Text} (hh : isHex h = true) (hl : isHex l = true) (ht : Encoded ok t) :
    Encoded ok (percent :: h :: l :: t)

def isEncoded (ok : UInt8 → Bool) : Text → Bool
  | [] => true
  | b :: rest =>
    if b = percent then
      match rest with
      | h :: l :: rest => isHex h && isHex l && isEncoded ok rest
      | _ => false
    else ok b && isEncoded ok rest

variable {ok : UInt8 → Bool} {s t : Text}

theorem isEncoded_iff : isEncoded ok t = true ↔ Encoded ok t := by
  constructor
  · intro h
    fun_induction isEncoded ok t with
    | case1 => exact .nil
    | case2 c l t ih =>
      simp only [Bool.and_eq_true] at h
      exact .byte h.1.1 h.1.2 (ih h.2)
    | case3 => cases h
    | case4 b t hb ih =>
      rw [Bool.and_eq_true] at h
      exact .char hb h.1 (ih h.2)
  · intro h
    induction h with
    | nil => rfl
    | char hb hok _ ih =>
      unfold isEncoded
      rw [if_neg hb, hok, ih]
      rfl
    | byte hh hl _ ih =>
      unfold isEncoded
      simp only [if_true, hh, hl, ih, Bool.and_self]

instance (ok : UInt8 → Bool) (t : Text) : Decidable (Encoded ok t) := decidable_of_iff _ isEncoded_iff

namespace Encoded

theorem mem (ht : Encoded ok t) {b : UInt8} (hb : b ∈ t) : ok b = true ∨ b = percent ∨ isHex b = true := by
  induction ht with
  | nil => cases hb
  | char _ hok _ ih =>
    rcases List.mem_cons.mp hb with rfl | hb
    · exact .inl hok
    · exact ih hb
  | byte hh hl _ ih =>
    simp only [List.mem_cons] at hb
    rcases hb with rfl | rfl | rfl | hb
    · exact .inr (.inl rfl)
    · exact .inr (.inr hh)
    · exact .inr (.inr hl)
    · exact ih hb

theorem append (hs : Encoded ok s) (ht : Encoded ok t) : Encoded ok (s ++ t) := by
  induction hs with
  | nil => exact ht
  | char hb hok _ ih => exact .char hb hok ih
  | byte hh hl _ ih => exact .byte hh hl ih

theorem mono {ok' : UInt8 → Bool} (h : ∀ b, ok b = true → ok' b = true) (ht : Encoded ok t) :
    Encoded ok' t := by
  induction ht with
  | nil => exact .nil
  | char hb hok _ ih => exact .char hb (h _ hok) ih
  | byte hh hl _ ih => exact .byte hh hl ih

/-- A text may be cut at a character that is no part of an encoded byte. -/
theorem cut {x : UInt8} (hx : x ≠ percent) (hhex : isHex x = false) (h : Encoded ok (s ++ x :: t)) :
    Encoded ok s ∧ Encoded ok t := by
  generalize hu : s ++ x :: t = u at h
  induction h generalizing s with
  | nil => simp at hu
  | char hb hok ht ih =>
    cases s with
    | nil =>
      obtain ⟨-, rfl⟩ := List.cons.inj hu
      exact ⟨.nil, ht⟩
    | cons c s =>
      obtain ⟨rfl, hrest⟩ := List.cons.inj hu
      obtain ⟨hs, ht'⟩ := ih hrest
      exact ⟨.char hb hok hs, ht'⟩
  | byte hh hl ht ih =>
    match s, hu with
    | [], hu => exact absurd (List.cons.inj hu).1 hx
    | [_], hu =>
      obtain ⟨rfl, -⟩ := List.cons.inj (List.cons.inj hu).2
      rw [hhex] at hh
      cases hh
    | [_, _], hu =>
      obtain ⟨rfl, -⟩ := List.cons.inj (List.cons.inj (List.cons.inj hu).2).2
      rw [hhex] at hl
      cases hl
    | _ :: _ :: _ :: s', hu =>
      simp only [List.cons_append, List.cons.injEq] at hu
      obtain ⟨rfl, rfl, rfl, hrest⟩ := hu
      obtain ⟨hs, ht'⟩ := ih hrest
      exact ⟨.byte hh hl hs, ht'⟩

end Encoded

/-- A character that ends a component. -/
def Ends (ok : UInt8 → Bool) (x : UInt8) : Prop := ok x = false ∧ x ≠ percent ∧ isHex x = false

instance (ok : UInt8 → Bool) (x : UInt8) : Decidable (Ends ok x) := inferInstanceAs (Decidable (_ ∧ _))

theorem Encoded.not_mem (ht : Encoded ok t) {x : UInt8} (hx : Ends ok x) : x ∉ t := by
  intro hmem
  rcases ht.mem hmem with hok | hpercent | hhex
  · rw [hx.1] at hok
    cases hok
  · exact hx.2.1 hpercent
  · rw [hx.2.2] at hhex
    cases hhex

/-! ## Percent-encoding -/

def hexDigit (n : Nat) : UInt8 := if n < 10 then UInt8.ofNat (48 + n) else UInt8.ofNat (55 + n)

def hexValue (b : UInt8) : Nat :=
  if 97 ≤ b then b.toNat - 87 else if 65 ≤ b then b.toNat - 55 else b.toNat - 48

/-- Every byte that is not unreserved is encoded. -/
def escape : Text → Text
  | [] => []
  | b :: rest =>
    if isUnreserved b then b :: escape rest
    else percent :: hexDigit (b.toNat / 16) :: hexDigit (b.toNat % 16) :: escape rest

def unescape : Text → Text
  | b :: h :: l :: rest =>
    if b = percent ∧ isHex h = true ∧ isHex l = true then
      UInt8.ofNat (hexValue h * 16 + hexValue l) :: unescape rest
    else b :: unescape (h :: l :: rest)
  | t => t

theorem unescape_cons {b : UInt8} (hb : b ≠ percent) (t : Text) : unescape (b :: t) = b :: unescape t := by
  match t with
  | [] => rfl
  | [_] => rfl
  | h :: l :: rest =>
    rw [unescape, if_neg]
    intro hbyte
    exact hb hbyte.1

theorem unescape_byte {h l : UInt8} (hh : isHex h = true) (hl : isHex l = true) (t : Text) :
    unescape (percent :: h :: l :: t) = UInt8.ofNat (hexValue h * 16 + hexValue l) :: unescape t := by
  rw [unescape, if_pos ⟨rfl, hh, hl⟩]

theorem isHex_hexDigit {n : Nat} (h : n < 16) : isHex (hexDigit n) = true := by
  have hall : ∀ n < 16, isHex (hexDigit n) = true := by decide
  exact hall n h

theorem hexValue_hexDigit {n : Nat} (h : n < 16) : hexValue (hexDigit n) = n := by
  have hall : ∀ n < 16, hexValue (hexDigit n) = n := by decide
  exact hall n h

theorem not_percent_of_unreserved {b : UInt8} (h : isUnreserved b = true) : b ≠ percent := by
  rintro rfl
  exact absurd h (by decide)

theorem encoded_escape (t : Text) : Encoded isUnreserved (escape t) := by
  induction t with
  | nil => exact .nil
  | cons b t ih =>
    have hb := b.toNat_lt
    rw [escape]
    split_ifs with hok
    · exact .char (not_percent_of_unreserved hok) hok ih
    · exact .byte (isHex_hexDigit (by omega)) (isHex_hexDigit (by omega)) ih

theorem unescape_of_not_mem (h : percent ∉ t) : unescape t = t := by
  induction t with
  | nil => rfl
  | cons b t ih =>
    rw [List.mem_cons, not_or] at h
    rw [unescape_cons (Ne.symm h.1), ih h.2]

theorem unescape_escape (t : Text) : unescape (escape t) = t := by
  induction t with
  | nil => rfl
  | cons b t ih =>
    have hb := b.toNat_lt
    rw [escape]
    split_ifs with hok
    · rw [unescape_cons (not_percent_of_unreserved hok), ih]
    · have hvalue : hexValue (hexDigit (b.toNat / 16)) * 16 + hexValue (hexDigit (b.toNat % 16)) = b.toNat := by
        rw [hexValue_hexDigit (by omega), hexValue_hexDigit (by omega)]
        omega
      rw [unescape_byte (isHex_hexDigit (by omega)) (isHex_hexDigit (by omega)), hvalue, ih, UInt8.ofNat_toNat]

/-! ## Components -/

/-- A name, which may be an IPv4 address, or a literal between brackets. -/
inductive Host
  | name (t : Text)
  | literal (t : Text)
  deriving DecidableEq, Repr

def Host.text : Host → Text
  | .name t => t
  | .literal t => t

def Host.bytes : Host → Text
  | .name t => t
  | .literal t => 91 :: t ++ [93]

/-- The components; a component may be there and empty.  Behind a host each segment of the path has a
slash before it; without a host, the path is `rooted` if it begins with one. -/
structure Components where
  scheme : Option Text
  userinfo : Option Text
  host : Option Host
  port : Option Text
  rooted : Bool
  segments : List Text
  query : Option Text
  fragment : Option Text
  deriving DecidableEq, Repr

/-- A component behind the character that begins it. -/
def begun (x : UInt8) : Option Text → Text
  | some t => x :: t
  | none => []

/-- A component before the character that ends it. -/
def ended (x : UInt8) : Option Text → Text
  | some t => t ++ [x]
  | none => []

namespace Components

variable (c : Components)

def authority (h : Host) : Text := ended at_ c.userinfo ++ (h.bytes ++ begun colon c.port)

def pathText : Text :=
  match c.host with
  | some _ => c.segments.flatMap fun t => slash :: t
  | none => (if c.rooted then [slash] else []) ++ [slash].intercalate c.segments

/-- What is before the query: the scheme, the authority and the path. -/
def hierText : Text :=
  ended colon c.scheme ++ ((match c.host with
    | some h => slash :: slash :: c.authority h
    | none => []) ++ c.pathText)

/-- The text that is made of the components. -/
def text : Text := (c.hierText ++ begun question c.query) ++ begun numberSign c.fragment

end Components

def isScheme : Text → Bool
  | [] => false
  | b :: t => isAlpha b && t.all isSchemeByte

def Host.Valid : Host → Prop
  | .name t => Encoded isNameByte t
  | .literal t => ∀ b ∈ t, isUserinfoByte b = true

instance : ∀ h : Host, Decidable h.Valid
  | .name t => inferInstanceAs (Decidable (Encoded isNameByte t))
  | .literal t => inferInstanceAs (Decidable (∀ b ∈ t, isUserinfoByte b = true))

/-- The first segment of a path without a host cannot be empty, and is not taken for a scheme. -/
def validStart (c : Components) : Bool :=
  match c.host, c.segments with
  | some _, _ => !c.rooted
  | none, [] => true
  | none, t :: _ => !t.isEmpty && (c.rooted || c.scheme.isSome || !t.contains colon)

/-- Each component has the characters that it may have. -/
structure Components.WellFormed (c : Components) : Prop where
  scheme : ∀ t ∈ c.scheme, isScheme t = true
  alone : c.host = none → c.userinfo = none ∧ c.port = none
  userinfo : ∀ t ∈ c.userinfo, Encoded isUserinfoByte t
  host : ∀ h ∈ c.host, h.Valid
  port : ∀ t ∈ c.port, t.all isDigit = true
  segments : ∀ t ∈ c.segments, Encoded isPathByte t
  start : validStart c = true
  query : ∀ t ∈ c.query, Encoded isQueryByte t
  fragment : ∀ t ∈ c.fragment, Encoded isQueryByte t

instance (c : Components) : Decidable c.WellFormed :=
  decidable_of_iff
    ((∀ t ∈ c.scheme, isScheme t = true) ∧ (c.host = none → c.userinfo = none ∧ c.port = none) ∧
      (∀ t ∈ c.userinfo, Encoded isUserinfoByte t) ∧ (∀ h ∈ c.host, h.Valid) ∧
      (∀ t ∈ c.port, t.all isDigit = true) ∧ (∀ t ∈ c.segments, Encoded isPathByte t) ∧ validStart c = true ∧
      (∀ t ∈ c.query, Encoded isQueryByte t) ∧ ∀ t ∈ c.fragment, Encoded isQueryByte t)
    ⟨fun ⟨h₁, h₂, h₃, h₄, h₅, h₆, h₇, h₈, h₉⟩ => ⟨h₁, h₂, h₃, h₄, h₅, h₆, h₇, h₈, h₉⟩,
      fun ⟨h₁, h₂, h₃, h₄, h₅, h₆, h₇, h₈, h₉⟩ => ⟨h₁, h₂, h₃, h₄, h₅, h₆, h₇, h₈, h₉⟩⟩

/-! ## Splitting -/

/-- What is before the first `x`, and what is behind it. -/
def breakOn (x : UInt8) (s : Text) : Text × Option Text :=
  match s.dropWhile (· != x) with
  | [] => (s, none)
  | _ :: behind => (s.takeWhile (· != x), some behind)

def splitScheme (s : Text) : Option Text × Text :=
  match breakOn colon s with
  | (t, some rest) => if isScheme t then (some t, rest) else (none, s)
  | (_, none) => (none, s)

def splitHost (s : Text) : Host × Option Text :=
  if s.head? = some 91 then
    match breakOn 93 s.tail with
    | (t, some behind) => (.literal t, (breakOn colon behind).2)
    | (_, none) => (.name s, none)
  else (.name (breakOn colon s).1, (breakOn colon s).2)

def splitAuthority (s : Text) : Option Text × Host × Option Text :=
  match breakOn at_ s with
  | (t, some rest) => (some t, splitHost rest)
  | (_, none) => (none, splitHost s)

def splitPath : Option Text → List Text
  | none => []
  | some t => t.splitOn slash

/-- The authority and the path, behind the scheme. -/
def splitHier (scheme query fragment : Option Text) : Text → Components
  | 47 :: 47 :: rest =>
    let front := breakOn slash rest
    let (userinfo, host, port) := splitAuthority front.1
    ⟨scheme, userinfo, some host, port, false, splitPath front.2, query, fragment⟩
  | [47] => ⟨scheme, none, none, none, true, [], query, fragment⟩
  | 47 :: rest => ⟨scheme, none, none, none, true, splitPath (some rest), query, fragment⟩
  | [] => ⟨scheme, none, none, none, false, [], query, fragment⟩
  | rest => ⟨scheme, none, none, none, false, splitPath (some rest), query, fragment⟩

/-- The components, if the text has any. -/
def candidate (s : Text) : Components :=
  let front := breakOn numberSign s
  let hier := breakOn question front.1
  let (scheme, rest) := splitScheme hier.1
  splitHier scheme hier.2 front.2 rest

def split (s : Text) : Option Components :=
  if (candidate s).WellFormed ∧ (candidate s).text = s then some (candidate s) else none

/-- A parser that accepts well-formed texts only and finds their components; and it accepts every text
with a scheme and a name for a host. -/
structure Splits (parse : Text → Option Components) : Prop where
  sound : ∀ {s c}, parse s = some c → c.WellFormed ∧ c.text = s
  complete : ∀ {c : Components} {scheme name : Text}, c.WellFormed → c.scheme = some scheme →
    c.host = some (.name name) → parse c.text = some c

theorem breakOn_begun {x : UInt8} (hx : x ∉ t) (o : Option Text) : breakOn x (t ++ begun x o) = (t, o) := by
  have hall : ∀ b ∈ t, (b != x) = true := by
    intro b hb
    rw [bne_iff_ne]
    rintro rfl
    exact hx hb
  cases o with
  | none =>
    have hdrop : t.dropWhile (· != x) = [] := List.dropWhile_eq_nil_iff.mpr hall
    rw [begun, List.append_nil, breakOn, hdrop]
  | some u =>
    have hdrop : (t ++ x :: u).dropWhile (· != x) = x :: u := by
      rw [List.dropWhile_append_of_pos hall]
      simp
    have htake : (t ++ x :: u).takeWhile (· != x) = t := by
      rw [List.takeWhile_append_of_pos hall]
      simp
    rw [begun, breakOn, hdrop, htake]

theorem breakOn_of_not_mem {x : UInt8} (hx : x ∉ t) : breakOn x t = (t, none) := by
  have h := breakOn_begun hx none
  rwa [begun, List.append_nil] at h

/-! ### Where the components end -/

/-- The characters before the query. -/
def isHierByte (b : UInt8) : Bool := isPathByte b || [37, 47].contains b

theorem forall_byte {P : UInt8 → Prop} (h : ∀ n < 256, P (UInt8.ofNat n)) (b : UInt8) : P b := by
  have hb := h b.toNat b.toNat_lt
  rwa [UInt8.ofNat_toNat] at hb

theorem isPathByte_of_userinfo {b : UInt8} (h : isUserinfoByte b = true) : isPathByte b = true := by
  rw [isPathByte, h]
  rfl

theorem isUserinfoByte_of_name {b : UInt8} (h : isNameByte b = true) : isUserinfoByte b = true := by
  rw [isUserinfoByte, h]
  rfl

theorem isUserinfoByte_of_unreserved {b : UInt8} (h : isUnreserved b = true) : isUserinfoByte b = true := by
  apply isUserinfoByte_of_name
  rw [isNameByte, h]
  rfl

theorem isPathByte_of_unreserved {b : UInt8} (h : isUnreserved b = true) : isPathByte b = true :=
  isPathByte_of_userinfo (isUserinfoByte_of_unreserved h)

theorem isUnreserved_of_hex {b : UInt8} (h : isHex b = true) : isUnreserved b = true := by
  simp only [isHex, Bool.or_eq_true, decide_eq_true_eq] at h
  rw [isUnreserved]
  rcases h with (hdigit | ⟨hlow, hhigh⟩) | ⟨hlow, hhigh⟩
  · rw [hdigit, Bool.or_true, Bool.true_or]
  · have hupper : 65 ≤ b ∧ b ≤ 90 := ⟨hlow, UInt8.le_trans hhigh (by decide)⟩
    rw [isAlpha, decide_eq_true hupper, Bool.true_or, Bool.true_or, Bool.true_or]
  · have hlower : 97 ≤ b ∧ b ≤ 122 := ⟨hlow, UInt8.le_trans hhigh (by decide)⟩
    rw [isAlpha, decide_eq_true hlower, Bool.or_true, Bool.true_or, Bool.true_or]

theorem isHierByte_of_path {b : UInt8} (h : isPathByte b = true ∨ b = percent ∨ isHex b = true) :
    isHierByte b = true := by
  rcases h with hpath | rfl | hhex
  · rw [isHierByte, hpath, Bool.true_or]
  · rfl
  · rw [isHierByte, isPathByte_of_unreserved (isUnreserved_of_hex hhex), Bool.true_or]

theorem isUserinfoByte_of_digit {b : UInt8} (h : isDigit b = true) : isUserinfoByte b = true := by
  apply isUserinfoByte_of_unreserved
  rw [isUnreserved, h, Bool.or_true, Bool.true_or]

theorem isUserinfoByte_of_scheme {b : UInt8} (h : isSchemeByte b = true) : isUserinfoByte b = true := by
  simp only [isSchemeByte, Bool.or_eq_true] at h
  rcases h with (halpha | hdigit) | hmark
  · apply isUserinfoByte_of_unreserved
    rw [isUnreserved, halpha, Bool.true_or, Bool.true_or]
  · exact isUserinfoByte_of_digit hdigit
  · simp only [List.contains_iff_mem, List.mem_cons, List.not_mem_nil, or_false] at hmark
    rcases hmark with rfl | rfl | rfl <;> rfl

theorem isSchemeByte_of_mem (h : isScheme t = true) {b : UInt8} (hb : b ∈ t) : isSchemeByte b = true := by
  cases t with
  | nil => cases hb
  | cons c t =>
    rw [isScheme, Bool.and_eq_true] at h
    rcases List.mem_cons.mp hb with rfl | hb
    · rw [isSchemeByte, h.1]
      rfl
    · exact List.all_eq_true.mp h.2 b hb

theorem flatMap_slash (segments : List Text) :
    (segments.flatMap fun t => slash :: t)
      = begun slash (if segments = [] then none else some ([slash].intercalate segments)) := by
  induction segments with
  | nil => rfl
  | cons t segments ih =>
    rw [List.flatMap_cons, ih, if_neg (List.cons_ne_nil _ _)]
    cases segments with
    | nil => simp [begun]
    | cons u segments =>
      rw [if_neg (List.cons_ne_nil _ _), List.intercalate_cons_cons]
      simp [begun]

namespace Components

variable {c : Components} {scheme name : Text}

/-- The text of the authority and of the path behind it. -/
theorem hierText_eq (hscheme : c.scheme = some scheme) (hhost : c.host = some (.name name)) :
    c.hierText = scheme ++ colon :: slash :: slash ::
      (ended at_ c.userinfo ++ (name ++ begun colon c.port) ++
        begun slash (if c.segments = [] then none else some ([slash].intercalate c.segments))) := by
  rw [← flatMap_slash]
  simp [hierText, authority, pathText, hscheme, hhost, ended, Host.bytes]

theorem WellFormed.digit (h : c.WellFormed) {b : UInt8} (hb : b ∈ begun colon c.port) :
    isUserinfoByte b = true := by
  cases hport : c.port with
  | none =>
    rw [hport] at hb
    cases hb
  | some t =>
    rw [hport] at hb
    rcases List.mem_cons.mp hb with rfl | hb
    · rfl
    · exact isUserinfoByte_of_digit (List.all_eq_true.mp (h.port t hport) b hb)

theorem WellFormed.encoded_name (h : c.WellFormed) (hhost : c.host = some (.name name)) : Encoded isNameByte name :=
  h.host _ hhost

theorem WellFormed.hierByte (h : c.WellFormed) (hscheme : c.scheme = some scheme)
    (hhost : c.host = some (.name name)) {b : UInt8} (hb : b ∈ c.hierText) : isHierByte b = true := by
  have huser : ∀ {b}, isUserinfoByte b = true → isHierByte b = true := fun hb =>
    isHierByte_of_path (.inl (isPathByte_of_userinfo hb))
  rw [hierText_eq hscheme hhost, ← flatMap_slash] at hb
  simp only [List.mem_append, List.mem_cons] at hb
  rcases hb with hb | rfl | rfl | rfl | (hb | hb | hb) | hb
  · exact huser (isUserinfoByte_of_scheme (isSchemeByte_of_mem (h.scheme _ hscheme) hb))
  · rfl
  · rfl
  · rfl
  · cases huserinfo : c.userinfo with
    | none =>
      rw [huserinfo] at hb
      cases hb
    | some t =>
      rw [huserinfo, ended, List.mem_append, List.mem_singleton] at hb
      rcases hb with hb | rfl
      · rcases (h.userinfo t huserinfo).mem hb with hok | hrest
        · exact huser hok
        · exact isHierByte_of_path (.inr hrest)
      · rfl
  · rcases (h.encoded_name hhost).mem hb with hok | hrest
    · exact huser (isUserinfoByte_of_name hok)
    · exact isHierByte_of_path (.inr hrest)
  · exact huser (h.digit hb)
  · obtain ⟨t, ht, hb⟩ := List.mem_flatMap.mp hb
    rcases List.mem_cons.mp hb with rfl | hb
    · rfl
    · exact isHierByte_of_path ((h.segments t ht).mem hb)

theorem WellFormed.not_mem_hierText (h : c.WellFormed) (hscheme : c.scheme = some scheme)
    (hhost : c.host = some (.name name)) {x : UInt8} (hx : isHierByte x = false) : x ∉ c.hierText := by
  intro hmem
  rw [h.hierByte hscheme hhost hmem] at hx
  cases hx

end Components

/-- Behind a host, the query and the fragment are the only characters that are not hierarchical. -/
theorem Components.WellFormed.not_mem_text {c : Components} {scheme name : Text} (h : c.WellFormed)
    (hscheme : c.scheme = some scheme) (hhost : c.host = some (.name name)) {x : UInt8}
    (hx : isHierByte x = false) (hquery : Ends isQueryByte x) (hquestion : x ≠ question)
    (hnumber : x ≠ numberSign) : x ∉ c.text := by
  have hbegun : ∀ {y : UInt8} {o : Option Text}, x ≠ y → (∀ t ∈ o, Encoded isQueryByte t) → x ∉ begun y o := by
    intro y o hy ho
    cases o with
    | none => simp [begun]
    | some t =>
      rw [begun, List.mem_cons, not_or]
      exact ⟨hy, (ho t rfl).not_mem hquery⟩
  simp only [Components.text, List.mem_append, not_or]
  exact ⟨⟨h.not_mem_hierText hscheme hhost hx, hbegun hquestion h.query⟩, hbegun hnumber h.fragment⟩

/-- No text of a URI begins with a colon. -/
theorem Components.WellFormed.head?_text {c : Components} (h : c.WellFormed) : c.text.head? ≠ some colon := by
  have hbegun : ∀ {x y : UInt8} (o o' : Option Text), x ≠ colon → y ≠ colon →
      (begun x o ++ begun y o').head? ≠ some colon := by
    intro x y o o' hx hy
    cases o with
    | some t => simpa [begun] using hx
    | none =>
      cases o' with
      | some t => simpa [begun] using hy
      | none => simp [begun]
  unfold Components.text Components.hierText Components.pathText
  cases hscheme : c.scheme with
  | some scheme =>
    have hvalid := h.scheme scheme hscheme
    cases scheme with
    | nil => cases hvalid
    | cons b t =>
      rw [isScheme, Bool.and_eq_true] at hvalid
      simp only [ended, List.cons_append, List.head?_cons, ne_eq, Option.some.injEq]
      rintro rfl
      exact absurd hvalid.1 (by decide)
  | none =>
    cases hhost : c.host with
    | some host => simp [ended, slash, colon]
    | none =>
      have hstart := h.start
      simp only [validStart, hhost, hscheme] at hstart
      simp only [ended, List.nil_append]
      cases hrooted : c.rooted with
      | true => simp [slash, colon]
      | false =>
        cases hsegments : c.segments with
        | nil => simpa using hbegun c.query c.fragment (by decide) (by decide)
        | cons t segments =>
          simp only [hsegments, hrooted, Option.isSome_none, Bool.false_or, Bool.and_eq_true,
            Bool.not_eq_true', List.contains_eq_mem, decide_eq_false_iff_not] at hstart
          cases t with
          | nil => simp at hstart
          | cons b t =>
            have hb : b ≠ colon := fun hb => hstart.2 (hb ▸ List.mem_cons_self)
            cases segments with
            | nil => simpa using hb
            | cons u segments => simpa [List.intercalate_cons_cons] using hb

/-! ### The components are found -/

theorem splitScheme_text {scheme : Text} (h : isScheme scheme = true) (rest : Text) :
    splitScheme (scheme ++ colon :: rest) = (some scheme, rest) := by
  have hcolon : colon ∉ scheme := by
    intro hmem
    exact absurd (isSchemeByte_of_mem h hmem) (by decide)
  have hbreak := breakOn_begun hcolon (some rest)
  rw [begun] at hbreak
  rw [splitScheme, hbreak]
  exact if_pos h

theorem splitHost_text {name : Text} (h : Encoded isNameByte name) (port : Option Text) :
    splitHost (name ++ begun colon port) = (.name name, port) := by
  have hhead : (name ++ begun colon port).head? ≠ some 91 := by
    cases name with
    | nil =>
      cases port with
      | none => simp [begun]
      | some t => simp [begun, colon]
    | cons b t =>
      have hbracket : (91 : UInt8) ∉ b :: t := h.not_mem (by decide)
      rw [List.cons_append, List.head?_cons]
      intro heq
      exact hbracket (Option.some.inj heq ▸ List.mem_cons_self)
  rw [splitHost, if_neg hhead, breakOn_begun (h.not_mem (by decide))]

theorem splitAuthority_text {name : Text} (hname : Encoded isNameByte name) {userinfo port : Option Text}
    (huserinfo : ∀ t ∈ userinfo, Encoded isUserinfoByte t) (hport : at_ ∉ begun colon port) :
    splitAuthority (ended at_ userinfo ++ (name ++ begun colon port)) = (userinfo, .name name, port) := by
  cases userinfo with
  | none =>
    have hat : at_ ∉ name ++ begun colon port := by
      rw [List.mem_append, not_or]
      exact ⟨hname.not_mem (by decide), hport⟩
    rw [ended, List.nil_append, splitAuthority, breakOn_of_not_mem hat]
    simp only
    rw [splitHost_text hname]
  | some t =>
    have hbreak := breakOn_begun ((huserinfo t rfl).not_mem (x := at_) (by decide)) (some (name ++ begun colon port))
    rw [begun] at hbreak
    rw [ended, List.append_assoc, List.singleton_append, splitAuthority, hbreak]
    simp only
    rw [splitHost_text hname]

theorem splitPath_text {segments : List Text} (h : ∀ t ∈ segments, slash ∉ t) :
    splitPath (if segments = [] then none else some ([slash].intercalate segments)) = segments := by
  split_ifs with hnil
  · rw [hnil]
    rfl
  · exact List.splitOn_intercalate slash h hnil

theorem splitHier_text {name : Text} (hname : Encoded isNameByte name) {userinfo port : Option Text}
    (huserinfo : ∀ t ∈ userinfo, Encoded isUserinfoByte t) (hport : ∀ b ∈ begun colon port, isUserinfoByte b = true)
    {segments : List Text} (hsegments : ∀ t ∈ segments, slash ∉ t) (scheme query fragment : Option Text) :
    splitHier scheme query fragment (slash :: slash ::
        (ended at_ userinfo ++ (name ++ begun colon port) ++
          begun slash (if segments = [] then none else some ([slash].intercalate segments))))
      = ⟨scheme, userinfo, some (.name name), port, false, segments, query, fragment⟩ := by
  have hends : ∀ x, isUserinfoByte x = false → x ∉ begun colon port := by
    intro x hx hmem
    rw [hport x hmem] at hx
    cases hx
  have hslash : slash ∉ ended at_ userinfo ++ (name ++ begun colon port) := by
    simp only [List.mem_append, not_or]
    refine ⟨?_, hname.not_mem (by decide), hends slash (by decide)⟩
    cases userinfo with
    | none => simp [ended]
    | some t =>
      simp only [ended, List.mem_append, List.mem_singleton, not_or]
      exact ⟨(huserinfo t rfl).not_mem (by decide), by decide⟩
  change Components.mk _ (splitAuthority (breakOn slash _).1).1 (some (splitAuthority (breakOn slash _).1).2.1)
    (splitAuthority (breakOn slash _).1).2.2 _ (splitPath (breakOn slash _).2) _ _ = _
  rw [breakOn_begun hslash, splitAuthority_text hname huserinfo (hends at_ (by decide)), splitPath_text hsegments]

theorem candidate_text {c : Components} {scheme name : Text} (h : c.WellFormed)
    (hscheme : c.scheme = some scheme) (hhost : c.host = some (.name name)) : candidate c.text = c := by
  have hquestion : question ∉ c.hierText := h.not_mem_hierText hscheme hhost (by decide)
  have hnumber : numberSign ∉ c.hierText ++ begun question c.query := by
    rw [List.mem_append, not_or]
    refine ⟨h.not_mem_hierText hscheme hhost (by decide), ?_⟩
    cases hquery : c.query with
    | none => simp [begun]
    | some t =>
      rw [begun, List.mem_cons, not_or]
      exact ⟨by decide, (h.query t hquery).not_mem (by decide)⟩
  have hstart : c.rooted = false := by
    have hvalid := h.start
    simpa [validStart, hhost] using hvalid
  simp only [candidate, Components.text]
  rw [breakOn_begun hnumber]
  simp only
  rw [breakOn_begun hquestion]
  simp only
  rw [Components.hierText_eq hscheme hhost, splitScheme_text (h.scheme _ hscheme)]
  simp only
  rw [splitHier_text (h.encoded_name hhost) h.userinfo (fun b hb => h.digit hb)
    fun t ht => (h.segments t ht).not_mem (by decide), ← hscheme, ← hhost, ← hstart]

/-- `split` finds the components of every text that has a scheme and a name for a host. -/
theorem splits_split : Splits split where
  sound := by
    intro s c h
    unfold split at h
    split_ifs at h with hvalid
    obtain rfl := Option.some.inj h
    exact hvalid
  complete := by
    intro c scheme name h hscheme hhost
    rw [split, candidate_text h hscheme hhost]
    exact if_pos ⟨h, rfl⟩

end Rfc3986
