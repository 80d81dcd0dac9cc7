import Nodeoze.Any.JsonParser
import Nodeoze.Any.Pointer
import Nodeoze.Lib.JsonLexemes
import Nodeoze.Lib.JsonUnique

/-!
# The JSON writer

`json::deflate_to_stream` escapes the bytes of strings, but not those of keys, and of a blob it writes an
empty string.  How a double is printed, and what the text of one stands for, are parameters.

Where no key needs an escape and the doubles are read as what they are, the text is a document, and
`json::inflate` reads the value back from it, but for the blobs.
-/

namespace Nodeoze.Any.Json

open Runs JsonText

/-! ## The writer -/

def hexDigit (n : Nat) : UInt8 := if n < 10 then UInt8.ofNat (0x30 + n) else UInt8.ofNat (0x57 + n)

/-- A byte of a string. -/
def escapeByte (c : UInt8) : List UInt8 :=
  if c = 0x22 ∨ c = 0x5c then [backslash, c]
  else if c = 0x08 then [backslash, 0x62]
  else if c = 0x0c then [backslash, 0x66]
  else if c = 0x0a then [backslash, 0x6e]
  else if c = 0x0d then [backslash, 0x72]
  else if c = 0x09 then [backslash, 0x74]
  else if c ≤ 0x1f then
    [backslash, 0x75, 0x30, 0x30, hexDigit (c.toNat / 16), hexDigit (c.toNat % 16)]
  else [c]

/-- `<<` of an integer -/
def printInteger (i : Int) : List UInt8 :=
  if i < 0 then minus :: decimal i.natAbs else decimal i.natAbs

section

variable (printDouble : UInt64 → List UInt8)

mutual

/-- `json::deflate_to_stream` -/
def deflateToStream : Any → List UInt8
  | .null => [0x6e, 0x75, 0x6c, 0x6c]
  | .boolean b => if b then [0x74, 0x72, 0x75, 0x65] else [0x66, 0x61, 0x6c, 0x73, 0x65]
  | .integer i => printInteger i.toInt
  | .floating w => printDouble w
  | .string bs => quote :: bs.flatMap escapeByte ++ [quote]
  | .blob _ => [quote, quote]
  | .array xs => openArray :: deflateElems true xs ++ [closeArray]
  | .object ms => openObject :: deflateMembers true ms ++ [closeObject]

def deflateElems (first : Bool) : List Any → List UInt8
  | [] => []
  | x :: xs => (if first then [] else [comma]) ++ deflateToStream x ++ deflateElems false xs

def deflateMembers (first : Bool) : List (Key × Any) → List UInt8
  | [] => []
  | (k, v) :: ms =>
    (if first then [] else [comma]) ++ (quote :: k ++ [quote, colon]) ++ deflateToStream v
      ++ deflateMembers false ms

end

end

/-! ## What is written -/

mutual

/-- The tree of a value; a blob is an empty string. -/
def treeOf : Any → JsonTree Number
  | .null => .null
  | .boolean b => .boolean b
  | .integer i => .number (.integer i)
  | .floating w => .number (.double w)
  | .string bs => .string bs
  | .blob _ => .string []
  | .array xs => .array (treesOf xs)
  | .object ms => .object (memberTreesOf ms)

def treesOf : List Any → List (JsonTree Number)
  | [] => []
  | x :: xs => treeOf x :: treesOf xs

def memberTreesOf : List (Key × Any) → List (Key × JsonTree Number)
  | [] => []
  | (k, v) :: ms => (k, treeOf v) :: memberTreesOf ms

end

mutual

/-- The value with an empty string for each blob. -/
def withoutBlobs : Any → Any
  | .blob _ => .string []
  | .array xs => .array (withoutBlobsAll xs)
  | .object ms => .object (withoutBlobsMembers ms)
  | x => x

def withoutBlobsAll : List Any → List Any
  | [] => []
  | x :: xs => withoutBlobs x :: withoutBlobsAll xs

def withoutBlobsMembers : List (Key × Any) → List (Key × Any)
  | [] => []
  | (k, v) :: ms => (k, withoutBlobs v) :: withoutBlobsMembers ms

end

/-- The numbers of RFC 8259 that yajl reads, the doubles as `double` says. -/
def lexemes (double : List UInt8 → Option UInt64) : Lexemes Number :=
  rfcLexemes (fun i => if -2 ^ 63 ≤ i ∧ i < 2 ^ 63 then some (.integer (Int64.ofInt i)) else none)
    fun t => (double t).map .double

/-- No byte of a key needs an escape. -/
def PlainKey (k : Key) : Prop := ∀ b ∈ k, ¬b < 0x20 ∧ b ≠ quote ∧ b ≠ backslash

section

variable (printDouble : UInt64 → List UInt8) (double : List UInt8 → Option UInt64)

mutual

/-- The keys need no escapes, and the doubles are read as what they are. -/
def Legible : Any → Prop
  | .floating w => numberValue (fun _ => none) double (printDouble w) = some w
  | .array xs => LegibleAll xs
  | .object ms => LegibleMembers ms
  | _ => True

def LegibleAll : List Any → Prop
  | [] => True
  | x :: xs => Legible x ∧ LegibleAll xs

def LegibleMembers : List (Key × Any) → Prop
  | [] => True
  | (k, v) :: ms => PlainKey k ∧ Legible v ∧ LegibleMembers ms

end

end

/-! ## Integers -/

theorem isDecimal_eq (b : UInt8) : isDecimal b = isDigit b := by
  rw [isDecimal, isDigit]

theorem head_digits {fuel n : Nat} (hn : n ≤ fuel) (hpos : 0 < n) : (digits fuel n).head? ≠ some 0x30 := by
  induction fuel generalizing n with
  | zero => omega
  | succ fuel ih =>
    unfold digits
    split_ifs with hlt
    · intro hhead
      have hvalue := congrArg UInt8.toNat (Option.some.inj hhead)
      rw [digit_toNat hlt] at hvalue
      change 48 + n = 48 at hvalue
      omega
    · rw [List.head?_append_of_ne_nil _ (digits_ne_nil _ _)]
      exact ih (by omega) (by omega)

theorem isNatural_decimal (n : Nat) : isNatural (decimal n) = true := by
  have hall : (decimal n).all isDecimal = true := by
    rw [List.all_eq_true]
    intro b hb
    rw [isDecimal_eq]
    exact isDigit_of_mem_decimal hb
  have hne : (decimal n).isEmpty = false := by
    rw [← Bool.not_eq_true, List.isEmpty_iff]
    exact decimal_ne_nil n
  rw [isNatural, hall, hne]
  rcases Nat.eq_zero_or_pos n with rfl | hpos
  · rfl
  · simp [decimal, head_digits (Nat.le_refl n) hpos]

theorem decimalValue_decimal (n : Nat) : decimalValue (decimal n) = n := foldl_digits (Nat.le_refl n)

theorem integerValue_printInteger (i : Int) : integerValue (printInteger i) = some i := by
  unfold printInteger
  split_ifs with hneg
  · rw [integerValue, if_pos (isNatural_decimal _), decimalValue_decimal]
    congr 1
    omega
  · have hhead : ∀ ds : List UInt8, decimal i.natAbs ≠ 0x2d :: ds := by
      intro ds heq
      have hmem : (0x2d : UInt8) ∈ decimal i.natAbs := by simp [heq]
      exact absurd (isDigit_of_mem_decimal hmem) (by decide)
    unfold integerValue
    split
    · rename_i ds heq
      exact absurd heq (hhead ds)
    · rw [if_pos (isNatural_decimal _), decimalValue_decimal]
      congr 1
      omega

theorem leading_printInteger (i : Int) : ∀ b ∈ printInteger i, isLeading b = true := by
  have hdecimal : ∀ n, ∀ b ∈ decimal n, isLeading b = true := by
    intro n b hb
    rw [isLeading, isDecimal_eq, isDigit_of_mem_decimal hb]
    rfl
  intro b hb
  unfold printInteger at hb
  split_ifs at hb
  · rcases List.mem_cons.mp hb with rfl | hb
    · rfl
    · exact hdecimal _ b hb
  · exact hdecimal _ b hb

/-- An integer is read as what it is. -/
theorem number_integer (double : List UInt8 → Option UInt64) (i : Int64) :
    (lexemes double).number (printInteger i.toInt) = some (.integer i) := by
  simp only [lexemes, rfcLexemes]
  have hleading := leading_printInteger i.toInt
  rw [numberValue, List.takeWhile_eq_self_iff.mpr hleading, List.dropWhile_eq_nil_iff.mpr hleading,
    integerValue_printInteger]
  have hlow := i.le_toInt
  have hhigh := i.toInt_lt
  simp only [List.isEmpty_nil, if_true]
  rw [if_pos ⟨hlow, hhigh⟩, Int64.ofInt_toInt]

/-! ## Strings -/

theorem hexValue_hexDigit {n : Nat} (hn : n < 16) : hexValue (hexDigit n) = some n := by
  revert n
  decide

theorem pieces_plain {b : UInt8} (hlow : ¬b < 0x20) (hquote : b ≠ quote) (hbackslash : b ≠ backslash)
    (t : List UInt8) : pieces (b :: t) = (pieces t).map (.byte b :: ·) := by
  rw [pieces.eq_def]
  simp only [if_neg hbackslash, if_neg (not_or.mpr ⟨hlow, hquote⟩)]

/-- What an escape stands for. -/
def pieceOf (c : UInt8) : Piece :=
  if c < 0x20 ∧ c ≠ 0x08 ∧ c ≠ 0x0c ∧ c ≠ 0x0a ∧ c ≠ 0x0d ∧ c ≠ 0x09 then .unit c.toNat else .byte c

theorem codeUnit_low {c : UInt8} (hc : c < 0x20) :
    codeUnit 0x30 0x30 (hexDigit (c.toNat / 16)) (hexDigit (c.toNat % 16)) = some c.toNat := by
  have hlt : c.toNat < 0x20 := UInt8.lt_iff_toNat_lt.mp hc
  have hzero : hexValue 0x30 = some 0 := rfl
  rw [codeUnit, hzero, hexValue_hexDigit (by omega), hexValue_hexDigit (by omega)]
  simp only [Option.bind_eq_bind, Option.bind_some, Option.pure_def]
  congr 1
  omega

theorem pieces_escapeByte (c : UInt8) (t : List UInt8) :
    pieces (escapeByte c ++ t) = (pieces t).map (pieceOf c :: ·) := by
  unfold escapeByte
  split_ifs with hquoted hb hf hn hr ht hlow
  · rcases hquoted with rfl | rfl <;> rfl
  · rw [hb]
    rfl
  · rw [hf]
    rfl
  · rw [hn]
    rfl
  · rw [hr]
    rfl
  · rw [ht]
    rfl
  · have hc : c < 0x20 := by
      rw [UInt8.le_iff_toNat_le] at hlow
      rw [UInt8.lt_iff_toNat_lt]
      exact Nat.lt_succ_of_le hlow
    rw [pieceOf, if_pos ⟨hc, hb, hf, hn, hr, ht⟩]
    change (codeUnit _ _ _ _).bind (fun n => (pieces t).map (.unit n :: ·)) = _
    rw [codeUnit_low hc]
    rfl
  · have hc : ¬c < 0x20 := by
      rw [UInt8.le_iff_toNat_le] at hlow
      rw [UInt8.lt_iff_toNat_lt]
      exact fun h => hlow (Nat.le_of_lt_succ h)
    rw [pieceOf, if_neg fun h => hc h.1]
    exact pieces_plain hc (fun h => hquoted (.inl h)) (fun h => hquoted (.inr h)) t

theorem joined_pieceOf (c : UInt8) (ps : List Piece) : joined (pieceOf c :: ps) = (joined ps).map (c :: ·) := by
  unfold pieceOf
  split_ifs with hc
  · have hlt : c.toNat < 0x20 := UInt8.lt_iff_toNat_lt.mp hc.1
    have hhigh : isHigh c.toNat = false := by
      simp only [isHigh, Bool.and_eq_false_iff, decide_eq_false_iff_not]
      omega
    have hlow : isLow c.toNat = false := by
      simp only [isLow, Bool.and_eq_false_iff, decide_eq_false_iff_not]
      omega
    have hutf8 : utf8 c.toNat = [c] := by
      rw [utf8, if_pos (by omega), UInt8.ofNat_toNat]
    rw [joined.eq_def]
    simp only [hhigh, hlow, hutf8, Bool.false_eq_true, if_false]
    rfl
  · rw [joined]

theorem pieces_escaped (bs : List UInt8) : pieces (bs.flatMap escapeByte) = some (bs.map pieceOf) := by
  induction bs with
  | nil => rw [List.flatMap_nil, pieces, List.map_nil]
  | cons c bs ih => rw [List.flatMap_cons, pieces_escapeByte, ih, Option.map_some, List.map_cons]

theorem joined_pieces (bs : List UInt8) : joined (bs.map pieceOf) = some bs := by
  induction bs with
  | nil => rw [List.map_nil, joined]
  | cons c bs ih => rw [List.map_cons, joined_pieceOf, ih, Option.map_some]

/-- A string is read as what it is. -/
theorem stringValue_escaped (bs : List UInt8) : stringValue (bs.flatMap escapeByte) = some bs := by
  rw [stringValue, pieces_escaped, Option.bind_some, joined_pieces]

theorem body_escapeByte (c : UInt8) : Body (escapeByte c) := by
  have hhex : ∀ n, n < 16 → hexDigit n ≠ quote ∧ hexDigit n ≠ backslash := by decide
  unfold escapeByte
  split_ifs with hquoted hb hf hn hr ht hlow
  · exact .escape .nil
  · exact .escape .nil
  · exact .escape .nil
  · exact .escape .nil
  · exact .escape .nil
  · exact .escape .nil
  · have hlt := UInt8.le_iff_toNat_le.mp hlow
    change c.toNat ≤ 31 at hlt
    obtain ⟨hquote, hbackslash⟩ := hhex (c.toNat / 16) (by omega)
    obtain ⟨hquote', hbackslash'⟩ := hhex (c.toNat % 16) (by omega)
    refine .escape (.plain (by decide) (by decide) (.plain (by decide) (by decide) ?_))
    exact .plain hquote hbackslash (.plain hquote' hbackslash' .nil)
  · exact .plain (fun h => hquoted (.inl h)) (fun h => hquoted (.inr h)) .nil

theorem body_escaped (bs : List UInt8) : Body (bs.flatMap escapeByte) := by
  induction bs with
  | nil => exact .nil
  | cons c bs ih =>
    rw [List.flatMap_cons]
    exact (body_escapeByte c).append ih

/-- A key that needs no escape is read as what it is. -/
theorem stringValue_plain {k : Key} (hk : PlainKey k) : stringValue k = some k ∧ Body k := by
  have hpieces : pieces k = some (k.map .byte) ∧ Body k := by
    induction k with
    | nil => exact ⟨by rw [pieces, List.map_nil], .nil⟩
    | cons b k ih =>
      obtain ⟨hlow, hquote, hbackslash⟩ := hk b List.mem_cons_self
      obtain ⟨hpieces, hbody⟩ := ih fun c hc => hk c (List.mem_cons_of_mem b hc)
      refine ⟨?_, .plain hquote hbackslash hbody⟩
      rw [pieces_plain hlow hquote hbackslash, hpieces, Option.map_some, List.map_cons]
  have hjoined : joined (k.map .byte) = some k := by
    clear hk hpieces
    induction k with
    | nil => rw [List.map_nil, joined]
    | cons b k ih => rw [List.map_cons, joined, ih, Option.map_some]
  rw [stringValue, hpieces.1, Option.bind_some]
  exact ⟨hjoined, hpieces.2⟩

/-! ## The text is a document -/

section

variable {printDouble : UInt64 → List UInt8} {double : List UInt8 → Option UInt64}

theorem legibleAll_iff (xs : List Any) :
    LegibleAll printDouble double xs ↔ ∀ x ∈ xs, Legible printDouble double x := by
  induction xs with
  | nil => simp [LegibleAll]
  | cons x xs ih => simp [LegibleAll, ih]

theorem legibleMembers_iff (ms : List (Key × Any)) :
    LegibleMembers printDouble double ms ↔ ∀ m ∈ ms, PlainKey m.1 ∧ Legible printDouble double m.2 := by
  induction ms with
  | nil => simp [LegibleMembers]
  | cons m ms ih =>
    obtain ⟨k, v⟩ := m
    simp [LegibleMembers, ih, and_assoc]

theorem blank_nil : Blank [] := fun _ hb => nomatch hb

theorem document_of_text {L : Lexemes Number} {j : JsonTree Number} {t : List UInt8} (ht : Text L j t) :
    Document L j t := by
  have hdocument := Document.mk blank_nil ht blank_nil
  rwa [List.nil_append, List.append_nil] at hdocument

theorem deflateElems_more (x : Any) (xs : List Any) :
    deflateElems printDouble false (x :: xs) = comma :: deflateElems printDouble true (x :: xs) := by
  simp [deflateElems]

theorem deflateMembers_more (m : Key × Any) (ms : List (Key × Any)) :
    deflateMembers printDouble false (m :: ms) = comma :: deflateMembers printDouble true (m :: ms) := by
  simp [deflateMembers]

theorem elems_deflate {L : Lexemes Number} (x : Any) (xs : List Any)
    (h : ∀ y ∈ x :: xs, Text L (treeOf y) (deflateToStream printDouble y)) :
    Elems L (treesOf (x :: xs)) (deflateElems printDouble true (x :: xs)) := by
  induction xs generalizing x with
  | nil =>
    simp only [treesOf, deflateElems, if_true, List.nil_append, List.append_nil]
    exact .last (document_of_text (h x List.mem_cons_self))
  | cons y ys ih =>
    rw [treesOf, deflateElems, if_pos rfl, List.nil_append, deflateElems_more]
    exact .more (document_of_text (h x List.mem_cons_self))
      (ih y fun z hz => h z (List.mem_cons_of_mem x hz))

theorem member_deflate {L : Lexemes Number} {k : Key} {j : JsonTree Number} {t : List UInt8}
    (hbody : Body k) (hk : L.string k = some k) (ht : Text L j t) :
    Member L (k, j) (quote :: k ++ [quote, colon] ++ t) := by
  have hmember := Member.mk blank_nil hbody hk blank_nil (document_of_text ht)
  simpa using hmember

theorem members_deflate {L : Lexemes Number} (m : Key × Any) (ms : List (Key × Any))
    (hkeys : ∀ n ∈ m :: ms, Body n.1 ∧ L.string n.1 = some n.1)
    (h : ∀ n ∈ m :: ms, Text L (treeOf n.2) (deflateToStream printDouble n.2)) :
    Members L (memberTreesOf (m :: ms)) (deflateMembers printDouble true (m :: ms)) := by
  induction ms generalizing m with
  | nil =>
    obtain ⟨k, v⟩ := m
    obtain ⟨hbody, hk⟩ := hkeys (k, v) List.mem_cons_self
    simp only [memberTreesOf, deflateMembers, if_true, List.nil_append, List.append_nil]
    exact .last (member_deflate hbody hk (h (k, v) List.mem_cons_self))
  | cons n ns ih =>
    obtain ⟨k, v⟩ := m
    obtain ⟨hbody, hk⟩ := hkeys (k, v) List.mem_cons_self
    rw [memberTreesOf, deflateMembers, if_pos rfl, List.nil_append, deflateMembers_more]
    exact .more (member_deflate hbody hk (h (k, v) List.mem_cons_self))
      (ih n (fun l hl => hkeys l (List.mem_cons_of_mem _ hl)) fun l hl => h l (List.mem_cons_of_mem _ hl))

theorem number_floating {t : List UInt8} {w : UInt64} (h : numberValue (fun _ => none) double t = some w) :
    (lexemes double).number t = some (.double w) := by
  simp only [lexemes, rfcLexemes]
  unfold numberValue at h ⊢
  split at h
  · contradiction
  · split_ifs at h ⊢
    simp only [h, Option.map_some]

/-- What is written is the text of the value. -/
theorem text_deflate (x : Any) (hx : Legible printDouble double x) :
    Text (lexemes double) (treeOf x) (deflateToStream printDouble x) := by
  induction x using induct with
  | null =>
    rw [treeOf, deflateToStream]
    exact .null
  | boolean b =>
    rw [treeOf, deflateToStream]
    cases b with
    | true => exact .yes
    | false => exact .no
  | integer i =>
    rw [treeOf, deflateToStream]
    exact .number (number_integer double i)
  | floating w =>
    rw [treeOf, deflateToStream]
    rw [Legible] at hx
    exact .number (number_floating hx)
  | string bs =>
    rw [treeOf, deflateToStream]
    exact .string (body_escaped bs) (stringValue_escaped bs)
  | blob bs =>
    rw [treeOf, deflateToStream]
    exact .string .nil rfl
  | array xs ih =>
    rw [Legible, legibleAll_iff] at hx
    rw [treeOf, deflateToStream]
    cases xs with
    | nil =>
      rw [treesOf, deflateElems]
      exact .emptyArray blank_nil
    | cons x xs => exact .array (elems_deflate x xs fun y hy => ih y hy (hx y hy))
  | object ms ih =>
    rw [Legible, legibleMembers_iff] at hx
    rw [treeOf, deflateToStream]
    cases ms with
    | nil =>
      rw [memberTreesOf, deflateMembers]
      exact .emptyObject blank_nil
    | cons m ms =>
      refine .object (members_deflate m ms (fun n hn => ?_) fun n hn => ih n hn (hx n hn).2)
      obtain ⟨hvalue, hbody⟩ := stringValue_plain (hx n hn).1
      exact ⟨hbody, hvalue⟩

end

/-! ## What is read back -/

theorem keys_withoutBlobs (ms : List (Key × Any)) : (withoutBlobsMembers ms).map Prod.fst = ms.map Prod.fst := by
  induction ms with
  | nil => rw [withoutBlobsMembers]
  | cons m ms ih =>
    obtain ⟨k, v⟩ := m
    rw [withoutBlobsMembers, List.map_cons, List.map_cons, ih]

theorem equalsAll_means {xs ys : List Any} (hxs : ∀ x ∈ xs, ∀ y, Means (treeOf x) y → y.equals (withoutBlobs x) = true)
    (h : MeansAll (treesOf xs) ys) : equalsAll ys (withoutBlobsAll xs) = true := by
  induction xs generalizing ys with
  | nil =>
    rw [treesOf, MeansAll] at h
    rw [h, withoutBlobsAll, equalsAll]
  | cons x xs ih =>
    rw [treesOf, MeansAll] at h
    obtain ⟨y, ys, rfl, hy, hys⟩ := h
    rw [withoutBlobsAll, equalsAll, hxs x List.mem_cons_self y hy,
      ih (fun z hz => hxs z (List.mem_cons_of_mem x hz)) hys]
    rfl

theorem mem_withoutBlobs {ms : List (Key × Any)} {k : Key} {x : Any} (h : (k, x) ∈ ms) :
    (k, withoutBlobs x) ∈ withoutBlobsMembers ms := by
  induction ms with
  | nil => cases h
  | cons m ms ih =>
    obtain ⟨k', v⟩ := m
    rw [withoutBlobsMembers]
    rcases List.mem_cons.mp h with heq | h
    · obtain ⟨rfl, rfl⟩ := Prod.mk.inj heq
      exact List.mem_cons_self
    · exact List.mem_cons_of_mem _ (ih h)

/-- The members that are told are those of the object. -/
theorem told_of_means {ms ns : List (Key × Any)} (h : MeansMembers (memberTreesOf ms) ns) :
    ns.map Prod.fst = ms.map Prod.fst ∧ ∀ n ∈ ns, ∃ x, (n.1, x) ∈ ms ∧ Means (treeOf x) n.2 := by
  induction ms generalizing ns with
  | nil =>
    rw [memberTreesOf, MeansMembers] at h
    rw [h]
    refine ⟨rfl, fun n hn => ?_⟩
    cases hn
  | cons m ms ih =>
    obtain ⟨k, v⟩ := m
    rw [memberTreesOf, MeansMembers] at h
    obtain ⟨y, ys, rfl, hy, hys⟩ := h
    obtain ⟨hkeys, hmembers⟩ := ih hys
    refine ⟨by rw [List.map_cons, List.map_cons, hkeys], fun n hn => ?_⟩
    rcases List.mem_cons.mp hn with rfl | hn
    · exact ⟨v, List.mem_cons_self, hy⟩
    · obtain ⟨x, hx, hmeans⟩ := hmembers n hn
      exact ⟨x, List.mem_cons_of_mem _ hx, hmeans⟩

theorem length_picks {ns told ms : List (Key × Any)} (h : Picks ns told)
    (hkeys : told.map Prod.fst = ms.map Prod.fst) (hnodup : (ms.map Prod.fst).Nodup) :
    ns.length = ms.length := by
  have hperm : (ns.map Prod.fst).Perm (ms.map Prod.fst) := by
    rw [List.perm_ext_iff_of_nodup h.nodup hnodup]
    intro k
    rw [← hkeys]
    constructor
    · intro hk
      obtain ⟨n, hn, rfl⟩ := List.mem_map.mp hk
      exact List.mem_map_of_mem (h.mem n hn)
    · intro hk
      obtain ⟨n, hn, rfl⟩ := List.mem_map.mp hk
      exact h.keys n hn
  simpa using hperm.length_eq

/-- What the tree of a value means is the value without its blobs. -/
theorem equals_of_means (x : Any) (hx : Distinct x) (y : Any) (hy : Means (treeOf x) y) :
    y.equals (withoutBlobs x) = true := by
  induction x using induct generalizing y with
  | null =>
    rw [treeOf, Means] at hy
    simp [hy, withoutBlobs, equals]
  | boolean b =>
    rw [treeOf, Means] at hy
    simp [hy, withoutBlobs, equals]
  | integer i =>
    rw [treeOf, Means] at hy
    simp [hy, withoutBlobs, equals]
  | floating w =>
    rw [treeOf, Means] at hy
    simp [hy, withoutBlobs, equals]
  | string bs =>
    rw [treeOf, Means] at hy
    simp [hy, withoutBlobs, equals]
  | blob bs =>
    rw [treeOf, Means] at hy
    simp [hy, withoutBlobs, equals]
  | array xs ih =>
    rw [treeOf, Means] at hy
    obtain ⟨ys, rfl, hys⟩ := hy
    rw [withoutBlobs, equals]
    exact equalsAll_means (fun z hz w hw => ih z hz ((distinctAll_iff xs).mp hx z hz) w hw) hys
  | object ms ih =>
    rw [treeOf, Means] at hy
    obtain ⟨ns, told, rfl, htold, hpicks⟩ := hy
    obtain ⟨hnodup, hms⟩ := hx
    obtain ⟨hkeys, hmembers⟩ := told_of_means htold
    have hlength : ns.length = (withoutBlobsMembers ms).length := by
      rw [length_picks hpicks hkeys hnodup]
      simpa using (congrArg List.length (keys_withoutBlobs ms)).symm
    have hequal : equalsMembers ns (withoutBlobsMembers ms) = true := by
      apply equalsMembers_of_lookup
      intro n hn
      obtain ⟨x, hmem, hmeans⟩ := hmembers n (hpicks.mem n hn)
      refine ⟨withoutBlobs x, lookup_of_mem ?_ (mem_withoutBlobs hmem), ?_⟩
      · rw [keys_withoutBlobs]
        exact hnodup
      · exact ih (n.1, x) hmem ((distinctMembers_iff ms).mp hms (n.1, x) hmem) n.2 hmeans
    rw [withoutBlobs, equals, hequal, hlength, beq_self_eq_true]
    rfl

theorem isContainer_treeOf (x : Any) : (treeOf x).isContainer = isContainer x := by
  cases x <;> rfl

variable {σ : Type} {Y : Yajl σ} {printDouble : UInt64 → List UInt8} {double : List UInt8 → Option UInt64}

/-- `{"a": ["\"\n", blob], "": -5}` -/
def noted : Any := .object [([0x61], .array [.string [0x22, 0x0a], .blob [7]]), ([], .integer (-5))]

/-- A key that needs escapes: two objects are written as the same text. -/
example : deflateToStream (fun _ => []) (.object [([0x61], .null), ([0x62], .null)])
    = deflateToStream (fun _ => [])
        (.object [([0x61, 0x22, 0x3a, 0x6e, 0x75, 0x6c, 0x6c, 0x2c, 0x22, 0x62], .null)]) := rfl

end Nodeoze.Any.Json
