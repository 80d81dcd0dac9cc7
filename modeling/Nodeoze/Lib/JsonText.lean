import Mathlib.Tactic.Common

/-!
# JSON texts

The grammar of JSON over bytes, with the trees that the texts stand for.  What the text of a number
stands for, and the escapes and the encoding of a string, are parameters.

A scanner that counts the brackets outside the strings shows where the text of an array or of an object
ends: no strict prefix of such a text is a text.
-/

namespace JsonText

/-- What a text stands for: the members of an object as they are written, `ν` the numbers. -/
inductive JsonTree (ν : Type)
  | null
  | boolean (b : Bool)
  | number (n : ν)
  | string (bytes : List UInt8)
  | array (elems : List (JsonTree ν))
  | object (members : List (List UInt8 × JsonTree ν))

variable {ν : Type}

namespace JsonTree

def isContainer : JsonTree ν → Bool
  | .array _ => true
  | .object _ => true
  | _ => false

/-- Induction over the elements and members. -/
theorem induct {P : JsonTree ν → Prop} (null : P .null) (boolean : ∀ b, P (.boolean b))
    (number : ∀ n, P (.number n)) (string : ∀ bs, P (.string bs))
    (array : ∀ js, (∀ j ∈ js, P j) → P (.array js))
    (object : ∀ ms : List (List UInt8 × JsonTree ν), (∀ m ∈ ms, P m.2) → P (.object ms))
    (j : JsonTree ν) : P j := by
  refine @JsonTree.rec ν P (fun js => ∀ j ∈ js, P j) (fun ms => ∀ m ∈ ms, P m.2) (fun m => P m.2)
    null boolean number string array object ?_ ?_ ?_ ?_ ?_ j
  · intro j hj
    contradiction
  · intro i is hi his j hj
    rcases List.mem_cons.mp hj with rfl | hj
    · exact hi
    · exact his j hj
  · intro m hm
    contradiction
  · intro n ns hn hns m hm
    rcases List.mem_cons.mp hm with rfl | hm
    · exact hn
    · exact hns m hm
  · intro k j hj
    exact hj

end JsonTree

/-! ## The grammar -/

abbrev quote : UInt8 := 0x22
abbrev comma : UInt8 := 0x2c
abbrev colon : UInt8 := 0x3a
abbrev backslash : UInt8 := 0x5c
abbrev openArray : UInt8 := 0x5b
abbrev closeArray : UInt8 := 0x5d
abbrev openObject : UInt8 := 0x7b
abbrev closeObject : UInt8 := 0x7d

def isBlank (b : UInt8) : Bool := b == 0x20 || b == 0x09 || b == 0x0a || b == 0x0d

def Blank (w : List UInt8) : Prop := ∀ b ∈ w, isBlank b = true

/-- Digits, signs, the point and the `e` of an exponent. -/
def isNumeric (b : UInt8) : Bool :=
  (0x30 ≤ b && b ≤ 0x39) || b == 0x2b || b == 0x2d || b == 0x2e || b == 0x65 || b == 0x45

/-- What the texts of numbers stand for, and those of strings, which are without their quotes. -/
structure Lexemes (ν : Type) where
  number : List UInt8 → Option ν
  string : List UInt8 → Option (List UInt8)
  number_ne_nil : number [] = none
  number_numeric : ∀ t n, number t = some n → ∀ b ∈ t, isNumeric b = true

/-- A quote in a string has a backslash before it. -/
inductive Body : List UInt8 → Prop
  | nil : Body []
  | plain {b : UInt8} {t : List UInt8} : b ≠ quote → b ≠ backslash → Body t → Body (b :: t)
  | escape {b : UInt8} {t : List UInt8} : Body t → Body (backslash :: b :: t)

mutual

inductive Text (L : Lexemes ν) : JsonTree ν → List UInt8 → Prop
  | null : Text L .null [0x6e, 0x75, 0x6c, 0x6c]
  | yes : Text L (.boolean true) [0x74, 0x72, 0x75, 0x65]
  | no : Text L (.boolean false) [0x66, 0x61, 0x6c, 0x73, 0x65]
  | number {n : ν} {t : List UInt8} : L.number t = some n → Text L (.number n) t
  | string {t bs : List UInt8} : Body t → L.string t = some bs →
      Text L (.string bs) (quote :: t ++ [quote])
  | emptyArray {w : List UInt8} : Blank w → Text L (.array []) (openArray :: w ++ [closeArray])
  | array {js : List (JsonTree ν)} {t : List UInt8} : Elems L js t →
      Text L (.array js) (openArray :: t ++ [closeArray])
  | emptyObject {w : List UInt8} : Blank w → Text L (.object []) (openObject :: w ++ [closeObject])
  | object {ms : List (List UInt8 × JsonTree ν)} {t : List UInt8} : Members L ms t →
      Text L (.object ms) (openObject :: t ++ [closeObject])

/-- A value between blanks: a document. -/
inductive Document (L : Lexemes ν) : JsonTree ν → List UInt8 → Prop
  | mk {j : JsonTree ν} {w t w' : List UInt8} : Blank w → Text L j t → Blank w' →
      Document L j (w ++ t ++ w')

inductive Elems (L : Lexemes ν) : List (JsonTree ν) → List UInt8 → Prop
  | last {j : JsonTree ν} {t : List UInt8} : Document L j t → Elems L [j] t
  | more {j : JsonTree ν} {js : List (JsonTree ν)} {t u : List UInt8} : Document L j t → Elems L js u →
      Elems L (j :: js) (t ++ comma :: u)

inductive Member (L : Lexemes ν) : List UInt8 × JsonTree ν → List UInt8 → Prop
  | mk {key k w w' t : List UInt8} {j : JsonTree ν} : Blank w → Body k → L.string k = some key →
      Blank w' → Document L j t → Member L (key, j) (w ++ (quote :: k ++ [quote]) ++ w' ++ colon :: t)

inductive Members (L : Lexemes ν) : List (List UInt8 × JsonTree ν) → List UInt8 → Prop
  | last {m : List UInt8 × JsonTree ν} {t : List UInt8} : Member L m t → Members L [m] t
  | more {m : List UInt8 × JsonTree ν} {ms : List (List UInt8 × JsonTree ν)} {t u : List UInt8} :
      Member L m t → Members L ms u → Members L (m :: ms) (t ++ comma :: u)

end

/-! ## The scanner -/

inductive Mode
  | outside
  | inside
  | escaped
  deriving DecidableEq

/-- Where the scanner is, and the brackets that are open. -/
def scan (s : Mode × Nat) (b : UInt8) : Mode × Nat :=
  match s.1 with
  | .outside =>
    if b = quote then (.inside, s.2)
    else if b = openArray ∨ b = openObject then (.outside, s.2 + 1)
    else if b = closeArray ∨ b = closeObject then (.outside, s.2 - 1)
    else s
  | .inside =>
    if b = quote then (.outside, s.2)
    else if b = backslash then (.escaped, s.2)
    else s
  | .escaped => (.inside, s.2)

/-- The brackets of a text match. -/
def Level (t : List UInt8) : Prop :=
  ∀ d, t.foldl scan (.outside, d) = (.outside, d) ∧
    ∀ n, d ≤ ((t.take n).foldl scan (.outside, d)).2

/-- A bracket is open from the first byte to the last. -/
def Encloses (t : List UInt8) : Prop :=
  ∀ d, t.foldl scan (.outside, d) = (.outside, d) ∧
    ∀ n, 0 < n → n < t.length → d < ((t.take n).foldl scan (.outside, d)).2

theorem Encloses.level {t : List UInt8} (ht : Encloses t) : Level t := by
  intro d
  refine ⟨(ht d).1, fun n => ?_⟩
  rcases Nat.eq_zero_or_pos n with rfl | hn
  · exact Nat.le_refl d
  rcases Nat.lt_or_ge n t.length with hlt | hge
  · exact Nat.le_of_lt ((ht d).2 n hn hlt)
  · apply Nat.le_of_eq
    rw [List.take_of_length_le hge, (ht d).1]

theorem Level.append {t u : List UInt8} (ht : Level t) (hu : Level u) : Level (t ++ u) := by
  intro d
  refine ⟨?_, fun n => ?_⟩
  · rw [List.foldl_append, (ht d).1, (hu d).1]
  rw [List.take_append, List.foldl_append]
  rcases Nat.le_total n t.length with hle | hge
  · rw [Nat.sub_eq_zero_of_le hle, List.take_zero]
    exact (ht d).2 n
  · rw [List.take_of_length_le hge, (ht d).1]
    exact (hu d).2 (n - t.length)

def isPlain (b : UInt8) : Bool :=
  b != quote && b != openArray && b != openObject && b != closeArray && b != closeObject

theorem scan_plain {b : UInt8} (hb : isPlain b = true) (d : Nat) :
    scan (.outside, d) b = (.outside, d) := by
  simp only [isPlain, Bool.and_eq_true, bne_iff_ne] at hb
  obtain ⟨⟨⟨⟨hquote, harray⟩, hobject⟩, harray'⟩, hobject'⟩ := hb
  rw [scan, if_neg hquote, if_neg (not_or.mpr ⟨harray, hobject⟩), if_neg (not_or.mpr ⟨harray', hobject'⟩)]

theorem level_plain {t : List UInt8} (ht : ∀ b ∈ t, isPlain b = true) : Level t := by
  have hfold : ∀ (t : List UInt8) (d : Nat), (∀ b ∈ t, isPlain b = true) →
      t.foldl scan (.outside, d) = (.outside, d) := by
    intro t d ht
    induction t with
    | nil => rfl
    | cons b t ih =>
      rw [List.foldl_cons, scan_plain (ht b List.mem_cons_self),
        ih fun b' hb' => ht b' (List.mem_cons_of_mem b hb')]
  intro d
  refine ⟨hfold t d ht, fun n => Nat.le_of_eq ?_⟩
  rw [hfold (t.take n) d fun b hb => ht b (List.mem_of_mem_take hb)]

theorem isPlain_of_isBlank {b : UInt8} (hb : isBlank b = true) : isPlain b = true := by
  simp only [isBlank, Bool.or_eq_true, beq_iff_eq] at hb
  rcases hb with ((rfl | rfl) | rfl) | rfl <;> decide

theorem isPlain_of_isNumeric {b : UInt8} (hb : isNumeric b = true) : isPlain b = true := by
  by_contra hplain
  simp only [isPlain, Bool.and_eq_true, bne_iff_ne, not_and_or, not_not] at hplain
  rcases hplain with (((rfl | rfl) | rfl) | rfl) | rfl <;> exact absurd hb (by decide)

theorem level_blank {w : List UInt8} (hw : Blank w) : Level w :=
  level_plain fun b hb => isPlain_of_isBlank (hw b hb)

theorem scan_inside {b : UInt8} (hquote : b ≠ quote) (hbackslash : b ≠ backslash) (d : Nat) :
    scan (.inside, d) b = (.inside, d) := by
  simp only [scan]
  rw [if_neg hquote, if_neg hbackslash]

theorem foldl_inside {t : List UInt8} (ht : Body t) (d : Nat) :
    t.foldl scan (.inside, d) = (.inside, d) := by
  induction ht with
  | nil => rfl
  | plain hquote hbackslash _ ih => rw [List.foldl_cons, scan_inside hquote hbackslash, ih]
  | escape _ ih => exact ih

/-- Brackets in a string do not count. -/
theorem depth_inside {t : List UInt8} (ht : Body t) (d n : Nat) :
    ((t.take n).foldl scan (.inside, d)).2 = d := by
  induction ht generalizing n with
  | nil => rw [List.take_nil, List.foldl_nil]
  | plain hquote hbackslash _ ih =>
    cases n with
    | zero => rfl
    | succ n => rw [List.take_succ_cons, List.foldl_cons, scan_inside hquote hbackslash, ih]
  | escape _ ih =>
    cases n with
    | zero => rfl
    | succ n =>
      cases n with
      | zero => rfl
      | succ n => exact ih n

theorem level_quoted {t : List UInt8} (ht : Body t) : Level (quote :: t ++ [quote]) := by
  intro d
  constructor
  · rw [List.cons_append, List.foldl_cons, List.foldl_append]
    change [quote].foldl scan (t.foldl scan (.inside, d)) = _
    rw [foldl_inside ht]
    rfl
  intro n
  apply Nat.le_of_eq
  cases n with
  | zero => rfl
  | succ n =>
    rw [List.cons_append, List.take_succ_cons, List.foldl_cons, List.take_append, List.foldl_append]
    change d = (([quote].take (n - t.length)).foldl scan ((t.take n).foldl scan (.inside, d))).2
    rcases Nat.le_total n t.length with hle | hge
    · rw [Nat.sub_eq_zero_of_le hle, List.take_zero, List.foldl_nil, depth_inside ht]
    · rw [List.take_of_length_le hge, foldl_inside ht]
      cases n - t.length with
      | zero => rfl
      | succ m => rw [List.take_succ_cons, List.take_nil]; rfl

/-- What is between two brackets. -/
theorem Level.encloses {t : List UInt8} (ht : Level t) {b b' : UInt8}
    (hopen : ∀ d, scan (.outside, d) b = (.outside, d + 1))
    (hclose : ∀ d, scan (.outside, d + 1) b' = (.outside, d)) : Encloses (b :: t ++ [b']) := by
  intro d
  constructor
  · rw [List.cons_append, List.foldl_cons, hopen, List.foldl_append, (ht (d + 1)).1, List.foldl_cons,
      hclose, List.foldl_nil]
  intro n hpos hlt
  obtain ⟨m, rfl⟩ : ∃ m, n = m + 1 := ⟨n - 1, by omega⟩
  have hm : m ≤ t.length := by
    simp only [List.length_append, List.length_cons, List.length_nil] at hlt
    omega
  rw [List.cons_append, List.take_succ_cons, List.foldl_cons, hopen, List.take_append_of_le_length hm]
  exact (ht (d + 1)).2 m

/-! ## The texts -/

variable {L : Lexemes ν}

/-- The brackets of every text of a tree match, and those of a container enclose it. -/
def Bracketed (L : Lexemes ν) (j : JsonTree ν) : Prop :=
  ∀ t, Text L j t → Level t ∧ (j.isContainer = true → Encloses t)

theorem level_document {j : JsonTree ν} {t : List UInt8} (hj : Bracketed L j) (ht : Document L j t) :
    Level t := by
  obtain ⟨hw, ht, hw'⟩ := ht
  exact ((level_blank hw).append (hj _ ht).1).append (level_blank hw')

theorem level_comma {u : List UInt8} (hu : Level u) : Level (comma :: u) := by
  have hcomma : Level [comma] := level_plain (List.all_eq_true.mp rfl)
  exact hcomma.append hu

theorem level_elems {js : List (JsonTree ν)} {t : List UInt8} (hjs : ∀ j ∈ js, Bracketed L j)
    (ht : Elems L js t) : Level t := by
  induction js generalizing t with
  | nil => cases ht
  | cons j js ih =>
    have hj := hjs j List.mem_cons_self
    cases ht with
    | last ht => exact level_document hj ht
    | more ht hu =>
      have hrest := ih (fun i hi => hjs i (List.mem_cons_of_mem j hi)) hu
      exact (level_document hj ht).append (level_comma hrest)

theorem level_member {m : List UInt8 × JsonTree ν} {t : List UInt8} (hm : Bracketed L m.2)
    (ht : Member L m t) : Level t := by
  obtain ⟨hw, hk, -, hw', ht⟩ := ht
  have hcolon : Level [colon] := level_plain (List.all_eq_true.mp rfl)
  have hkey := ((level_blank hw).append (level_quoted hk)).append (level_blank hw')
  exact hkey.append (hcolon.append (level_document hm ht))

theorem level_members {ms : List (List UInt8 × JsonTree ν)} {t : List UInt8}
    (hms : ∀ m ∈ ms, Bracketed L m.2) (ht : Members L ms t) : Level t := by
  induction ms generalizing t with
  | nil => cases ht
  | cons m ms ih =>
    have hm := hms m List.mem_cons_self
    cases ht with
    | last ht => exact level_member hm ht
    | more ht hu =>
      have hrest := ih (fun n hn => hms n (List.mem_cons_of_mem m hn)) hu
      exact (level_member hm ht).append (level_comma hrest)

theorem Level.encloses_array {t : List UInt8} (ht : Level t) :
    Encloses (openArray :: t ++ [closeArray]) :=
  ht.encloses (fun _ => rfl) fun _ => rfl

theorem Level.encloses_object {t : List UInt8} (ht : Level t) :
    Encloses (openObject :: t ++ [closeObject]) :=
  ht.encloses (fun _ => rfl) fun _ => rfl

theorem bracketed (L : Lexemes ν) (j : JsonTree ν) : Bracketed L j := by
  induction j using JsonTree.induct with
  | null =>
    intro t ht
    cases ht
    exact ⟨level_plain (List.all_eq_true.mp rfl), by intro h; contradiction⟩
  | boolean b =>
    intro t ht
    cases ht with
    | yes => exact ⟨level_plain (List.all_eq_true.mp rfl), by intro h; contradiction⟩
    | no => exact ⟨level_plain (List.all_eq_true.mp rfl), by intro h; contradiction⟩
  | number n =>
    intro t ht
    cases ht with
    | number hn =>
      refine ⟨level_plain fun b hb => ?_, by intro h; contradiction⟩
      exact isPlain_of_isNumeric (L.number_numeric t n hn b hb)
  | string bs =>
    intro t ht
    cases ht with
    | string hbody _ => exact ⟨level_quoted hbody, by intro h; contradiction⟩
  | array js ih =>
    intro t ht
    have henc : Encloses t := by
      cases ht with
      | emptyArray hw => exact (level_blank hw).encloses_array
      | array hjs => exact (level_elems ih hjs).encloses_array
    exact ⟨henc.level, fun _ => henc⟩
  | object ms ih =>
    intro t ht
    have henc : Encloses t := by
      cases ht with
      | emptyObject hw => exact (level_blank hw).encloses_object
      | object hms => exact (level_members ih hms).encloses_object
    exact ⟨henc.level, fun _ => henc⟩

/-- What a text starts with. -/
inductive Head
  | scalar
  | array
  | object
  deriving DecidableEq

def JsonTree.head : JsonTree ν → Head
  | .array _ => .array
  | .object _ => .object
  | _ => .scalar

def headOf (b : UInt8) : Head :=
  if b = openArray then .array else if b = openObject then .object else .scalar

theorem headOf_isNumeric {b : UInt8} (hb : isNumeric b = true) :
    isBlank b = false ∧ headOf b = .scalar := by
  constructor
  · by_contra hblank
    simp only [isBlank, Bool.not_eq_false, Bool.or_eq_true, beq_iff_eq] at hblank
    rcases hblank with ((rfl | rfl) | rfl) | rfl <;> exact absurd hb (by decide)
  · have harray : b ≠ openArray := by rintro rfl; exact absurd hb (by decide)
    have hobject : b ≠ openObject := by rintro rfl; exact absurd hb (by decide)
    rw [headOf, if_neg harray, if_neg hobject]

/-- The first byte of a text is no blank, and shows whether it is an array or an object. -/
theorem text_head {j : JsonTree ν} {t : List UInt8} (ht : Text L j t) :
    ∃ b u, t = b :: u ∧ isBlank b = false ∧ headOf b = j.head := by
  cases ht with
  | null => exact ⟨_, _, rfl, rfl, rfl⟩
  | yes => exact ⟨_, _, rfl, rfl, rfl⟩
  | no => exact ⟨_, _, rfl, rfl, rfl⟩
  | @number n t hn =>
    cases t with
    | nil =>
      rw [L.number_ne_nil] at hn
      contradiction
    | cons b u =>
      obtain ⟨hblank, hhead⟩ := headOf_isNumeric (L.number_numeric _ n hn b List.mem_cons_self)
      exact ⟨b, u, rfl, hblank, hhead⟩
  | string _ _ => exact ⟨_, _, rfl, rfl, rfl⟩
  | emptyArray _ => exact ⟨_, _, rfl, rfl, rfl⟩
  | array _ => exact ⟨_, _, rfl, rfl, rfl⟩
  | emptyObject _ => exact ⟨_, _, rfl, rfl, rfl⟩
  | object _ => exact ⟨_, _, rfl, rfl, rfl⟩

theorem document_head {j : JsonTree ν} {s : List UInt8} (hs : Document L j s) :
    ∃ b, s.find? (fun b => !isBlank b) = some b ∧ headOf b = j.head := by
  obtain ⟨hw, ht, -⟩ := hs
  obtain ⟨b, u, rfl, hblank, hhead⟩ := text_head ht
  refine ⟨b, ?_, hhead⟩
  rw [List.append_assoc, List.find?_append, List.find?_eq_none.mpr, Option.none_or, List.cons_append,
    List.find?_cons_of_pos]
  · rw [hblank]
    rfl
  · intro c hc
    rw [hw c hc]
    decide

/-- Whatever a text stands for, it is an array, or an object, or neither. -/
theorem head_unique {i j : JsonTree ν} {s : List UInt8} (hi : Document L i s) (hj : Document L j s) :
    i.head = j.head := by
  obtain ⟨b, hb, hhead⟩ := document_head hi
  obtain ⟨c, hc, hhead'⟩ := document_head hj
  obtain rfl := Option.some.inj (hb.symm.trans hc)
  exact hhead.symm.trans hhead'

theorem isContainer_of_head {i j : JsonTree ν} (h : i.head = j.head) : i.isContainer = j.isContainer := by
  have hscalar : ∀ j : JsonTree ν, j.isContainer = true ↔ j.head ≠ .scalar := by
    intro j
    cases j <;> simp [JsonTree.isContainer, JsonTree.head]
  rw [Bool.eq_iff_iff, hscalar, hscalar, h]

theorem document_not_blank {j : JsonTree ν} {s : List UInt8} (hs : Document L j s) : ¬Blank s := by
  intro hblank
  obtain ⟨b, hb, -⟩ := document_head hs
  have hmem := List.mem_of_find?_eq_some hb
  have hnot := List.find?_some hb
  rw [hblank b hmem] at hnot
  contradiction

/-- The text of an array or an object, that does not end yet. -/
def Unfinished (L : Lexemes ν) (s : List UInt8) : Prop :=
  ∃ (j : JsonTree ν) (w t rest : List UInt8), j.isContainer = true ∧ Blank w ∧ Text L j t ∧ rest ≠ [] ∧
    s ++ rest = w ++ t

/-- An unfinished text is no document. -/
theorem not_document_of_unfinished {j : JsonTree ν} {s : List UInt8} (hs : Document L j s) :
    ¬Unfinished L s := by
  rintro ⟨i, w, t, rest, hi, hw, ht, hrest, heq⟩
  have hend : s.foldl scan (.outside, 0) = (.outside, 0) :=
    (level_document (bracketed L j) hs 0).1
  rcases List.append_eq_append_iff.mp heq with ⟨v, hv, -⟩ | ⟨v, hv, hv'⟩
  · -- all of it is blank
    refine document_not_blank hs fun b hb => hw b ?_
    rw [hv]
    exact List.mem_append_left v hb
  · have hne : v ≠ [] := by
      rintro rfl
      refine document_not_blank hs fun b hb => hw b ?_
      rwa [hv, List.append_nil] at hb
    have hlt : v.length < t.length := by
      rw [hv', List.length_append]
      have := List.length_pos_iff.mpr hrest
      omega
    have hopen := ((bracketed L i t ht).2 hi 0).2 v.length (List.length_pos_iff.mpr hne) hlt
    rw [hv', List.take_left] at hopen
    rw [hv, List.foldl_append, (level_blank hw 0).1] at hend
    rw [hend] at hopen
    exact Nat.lt_irrefl 0 hopen

/-- The brackets of a document match. -/
theorem not_document_of_scan {s : List UInt8} (hs : s.foldl scan (.outside, 1) ≠ (.outside, 1)) :
    ¬∃ j, Document L j s := by
  rintro ⟨j, hj⟩
  exact hs (level_document (bracketed L j) hj 1).1

theorem document_emptyArray (L : Lexemes ν) : Document L (.array []) [openArray, closeArray] := by
  have hblank : Blank [] := by simp [Blank]
  exact .mk hblank (.emptyArray hblank) hblank

theorem document_emptyObject (L : Lexemes ν) : Document L (.object []) [openObject, closeObject] := by
  have hblank : Blank [] := by simp [Blank]
  exact .mk hblank (.emptyObject hblank) hblank

end JsonText
