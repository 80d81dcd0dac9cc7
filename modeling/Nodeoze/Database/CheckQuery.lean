import Nodeoze.Database.ContinuousSelect
import Nodeoze.Lib.Condition

/-!
# The check statement

`continuous_select` makes the statement that looks one row up by putting ` AND oid = ?` behind what the
caller gave as the `where` argument.  If the caller's condition is an `OR`, the new operand belongs to the
last operand of that `OR` only, and the statement finds rows with other oids.
-/

namespace Nodeoze.Database

open Condition

/-- The operands of a condition: those of the caller, and the one that is added. -/
inductive Atom
  | expr (text : String)
  | oidIs
  deriving DecidableEq, Repr

def tokenText : Token Atom → String
  | .atom (.expr s) => s
  | .atom .oidIs => "oid = ?"
  | .not => "NOT"
  | .and => "AND"
  | .or => "OR"
  | .left => "("
  | .right => ")"

/-- Each token with a blank before it. -/
def spaced : List (Token Atom) → String
  | [] => ""
  | t :: ts => " " ++ (tokenText t ++ spaced ts)

def tokensText : List (Token Atom) → String
  | [] => ""
  | t :: ts => tokenText t ++ spaced ts

/-- A `where` argument: empty, or `WHERE` and a condition. -/
abbrev Where := Option (List (Token Atom))

def Where.text : Where → String
  | none => ""
  | some ts => "WHERE " ++ tokensText ts

/-- The text of the check statement. -/
def checkQuery (columns table where_ : String) : String :=
  if where_ = "" then "SELECT " ++ columns ++ " FROM " ++ table ++ " WHERE oid = ?"
  else "SELECT " ++ columns ++ " FROM " ++ table ++ " " ++ where_ ++ " AND oid = ?"

/-- The tokens behind its `WHERE`. -/
def checkTokens : Where → List (Token Atom)
  | none => [.atom .oidIs]
  | some ts => ts ++ [.and, .atom .oidIs]

/-- What a `where` argument means. -/
inductive Where.Means : Where → Option (Cond Atom) → Prop
  | empty : Where.Means none none
  | cond {ts : List (Token Atom)} {e : Cond Atom} : Derives .whole ts e → Where.Means (some ts) (some e)

section

variable {Row : Type}

/-- The operands for one row; `value` is what the caller's are for it. -/
def valuation (value : String → Oid → Row → Option Bool) (param oid : Oid) (row : Row) :
    Atom → Option Bool
  | .expr s => value s oid row
  | .oidIs => some (decide (oid = param))

/-- The caller's condition holds for a row; an empty one always does. -/
def Holds (e : Option (Cond Atom)) (val : Atom → Option Bool) : Prop := ∀ c ∈ e, c.Satisfied val

/-- What stands before the last `OR` of the caller's condition that is outside of all parentheses. -/
def Where.Leading (w : Where) (d : Cond Atom) : Prop := ∃ ts, w = some ts ∧ Condition.Leading ts d

/-! ### The text -/

theorem spaced_append (ts us : List (Token Atom)) : spaced (ts ++ us) = spaced ts ++ spaced us := by
  induction ts with
  | nil => exact String.empty_append.symm
  | cons t ts ih => rw [List.cons_append, spaced, spaced, ih, String.append_assoc, String.append_assoc]

theorem tokensText_append {ts : List (Token Atom)} (hts : ts ≠ []) (us : List (Token Atom)) :
    tokensText (ts ++ us) = tokensText ts ++ spaced us := by
  cases ts with
  | nil => exact absurd rfl hts
  | cons t ts => rw [List.cons_append, tokensText, tokensText, spaced_append, String.append_assoc]

theorem derives_ne_nil {l : Level} {ts : List (Token Atom)} {c : Cond Atom} (h : Derives l ts c) :
    ts ≠ [] := by
  induction h with
  | atom => exact List.cons_ne_nil _ _
  | parens => exact List.cons_ne_nil _ _
  | not => exact List.cons_ne_nil _ _
  | factor _ ih => exact ih
  | term _ ih => exact ih
  | and => simp
  | or => simp

/-- The text is the one of the tokens. -/
theorem checkQuery_text {w : Where} {e : Option (Cond Atom)} (he : w.Means e) (columns table : String) :
    checkQuery columns table w.text =
      "SELECT " ++ columns ++ " FROM " ++ table ++ " " ++ Where.text (some (checkTokens w)) := by
  cases he with
  | empty =>
    have hlast : " " ++ Where.text (some (checkTokens none)) = " WHERE oid = ?" := by decide
    rw [String.append_assoc, hlast]
    rfl
  | @cond ts e he =>
    have hne : Where.text (some ts) ≠ "" := by
      intro hempty
      have hchars := congrArg String.toList hempty
      simp [Where.text] at hchars
    have hlast : spaced [.and, .atom .oidIs] = " AND oid = ?" := by decide
    rw [checkQuery, if_neg hne, checkTokens, Where.text, Where.text,
      tokensText_append (derives_ne_nil he), hlast]
    simp only [String.append_assoc]

/-! ### The condition -/

theorem derives_checkTokens {w : Where} {e : Option (Cond Atom)} (he : w.Means e) :
    ∃ c, Derives .whole (checkTokens w) c := by
  cases he with
  | empty => exact ⟨.atom .oidIs, .term (.factor (.atom _))⟩
  | cond he =>
    rcases derives_and he .oidIs with ⟨hderives, -⟩ | ⟨d, k, -, -, hderives⟩
    · exact ⟨_, hderives⟩
    · exact ⟨_, hderives⟩

theorem satisfied_check_iff {w : Where} {e : Option (Cond Atom)} (he : w.Means e) {c : Cond Atom}
    (hc : Derives .whole (checkTokens w) c) (value : String → Oid → Row → Option Bool)
    (param oid : Oid) (row : Row) :
    (c.Satisfied (valuation value param oid row) ↔
        Holds e (valuation value param oid row) ∧ oid = param) ↔
      (oid = param ∨ ∀ d, w.Leading d → ¬d.Satisfied (valuation value param oid row)) := by
  have hatom : valuation value param oid row .oidIs = some true ↔ oid = param := by
    simp [valuation]
  cases he with
  | empty =>
    have hderives : Derives .whole [.atom Atom.oidIs] (.atom .oidIs) := .term (.factor (.atom _))
    rw [hc.unique hderives, Cond.Satisfied, Cond.eval, hatom]
    refine iff_of_true ?_ (.inr ?_)
    · simp [Holds]
    · rintro d ⟨ts, hts, -⟩
      cases hts
  | @cond ts e he =>
    have hiff := satisfied_and_iff he hc (valuation value param oid row)
    rw [hatom] at hiff
    simpa [Holds, Where.Leading] using hiff

/-- Where there is no outer `OR`, the statement finds a row just when the select has it. -/
theorem selects_iff_check {q : Select Row} {tables : String → Oid → Option Row} {w : Where}
    {e : Option (Cond Atom)} {value : String → Oid → Row → Option Bool} {c : Cond Atom} {param : Oid}
    (he : w.Means e) (hc : Derives .whole (checkTokens w) c) (hlead : ∀ d, ¬w.Leading d)
    (hq : ∀ oid row, q.satisfies oid row = true ↔ Holds e (valuation value param oid row)) :
    q.selects tables param = true ↔
      ∃ oid row, tables q.table oid = some row ∧ c.Satisfied (valuation value param oid row) := by
  have hcheck : ∀ oid row, c.Satisfied (valuation value param oid row) ↔
      Holds e (valuation value param oid row) ∧ oid = param := by
    intro oid row
    exact (satisfied_check_iff he hc value param oid row).mpr (.inr fun d hd => absurd hd (hlead d))
  rw [Select.selects, Option.any_eq_true]
  constructor
  · rintro ⟨row, hrow, hsat⟩
    exact ⟨param, row, hrow, (hcheck param row).mpr ⟨(hq param row).mp hsat, rfl⟩⟩
  · rintro ⟨oid, row, hrow, hsat⟩
    obtain ⟨hholds, rfl⟩ := (hcheck oid row).mp hsat
    exact ⟨row, hrow, (hq oid row).mpr hholds⟩

/-- The check statement has one condition.  A row satisfies it just when the caller's condition holds for
the row and its oid is the parameter, if and only if the oid is the parameter, or what stands before the
last outer `OR` of the caller's condition does not hold for the row. -/
theorem check_statement_iff (w : Where) (e : Option (Cond Atom)) (he : w.Means e) :
    ∃! c, Derives .whole (checkTokens w) c ∧
      ∀ (value : String → Oid → Row → Option Bool) (param oid : Oid) (row : Row),
        (c.Satisfied (valuation value param oid row) ↔
            Holds e (valuation value param oid row) ∧ oid = param) ↔
          (oid = param ∨ ∀ d, w.Leading d → ¬d.Satisfied (valuation value param oid row)) := by
  obtain ⟨c, hc⟩ := derives_checkTokens he
  refine ⟨c, ⟨hc, satisfied_check_iff he hc⟩, ?_⟩
  rintro c' ⟨hc', -⟩
  exact hc'.unique hc

end

/-- `WHERE ( a OR b ) AND NOT c` -/
def groupedWhere : Where :=
  some ([.left] ++ [.atom (.expr "a")] ++ .or :: [.atom (.expr "b")] ++ [.right] ++
    .and :: .not :: [.atom (.expr "c")])

theorem groupedWhere_checked :
    groupedWhere.text = "WHERE ( a OR b ) AND NOT c" ∧
      ∃ c, Derives .whole (checkTokens groupedWhere) c ∧
        ∀ (value : String → Oid → Unit → Option Bool) (param oid : Oid),
          c.Satisfied (valuation value param oid ()) ↔
            Holds (some (.and (.or (.atom (.expr "a")) (.atom (.expr "b"))) (.not (.atom (.expr "c")))))
              (valuation value param oid ()) ∧ oid = param := by
  have hinner : Derives .whole [.atom (Atom.expr "a"), .or, .atom (.expr "b")]
      (.or (.atom (.expr "a")) (.atom (.expr "b"))) :=
    .or (.term (.factor (.atom _))) (.factor (.atom _))
  have hterm : Derives .term
      [.left, .atom (Atom.expr "a"), .or, .atom (.expr "b"), .right, .and, .not, .atom (.expr "c")]
      (.and (.or (.atom (.expr "a")) (.atom (.expr "b"))) (.not (.atom (.expr "c")))) :=
    .and (.factor (.parens hinner)) (.not (.atom _))
  obtain ⟨c, ⟨hc, hiff⟩, -⟩ :=
    @check_statement_iff Unit groupedWhere _ (.cond (.term hterm))
  refine ⟨by decide, c, hc, fun value param oid => (hiff value param oid ()).mpr (.inr ?_)⟩
  rintro d ⟨ts, hts, hd⟩
  obtain rfl := Option.some.inj hts
  exact absurd hd (not_leading hterm)

/-- `WHERE a OR b`: a row with the oid 1 for which `a` holds is found under the parameter 2. -/
theorem or_escapes :
    checkQuery "oid" "t" "WHERE a OR b" = "SELECT oid FROM t WHERE a OR b AND oid = ?" ∧
      Where.text (some [.atom (.expr "a"), .or, .atom (.expr "b")]) = "WHERE a OR b" ∧
      ¬∀ (w : Where) (e : Option (Cond Atom)), w.Means e → ∀ c, Derives .whole (checkTokens w) c →
        ∀ (value : String → Oid → Unit → Option Bool) (param oid : Oid) (row : Unit),
          c.Satisfied (valuation value param oid row) ↔
            Holds e (valuation value param oid row) ∧ oid = param := by
  refine ⟨by decide, by decide, fun hall => ?_⟩
  have hfactor : ∀ a : Atom, Derives .factor [.atom a] (.atom a) := fun a => .atom a
  have he : Derives .whole [.atom (Atom.expr "a"), .or, .atom (.expr "b")]
      (.or (.atom (.expr "a")) (.atom (.expr "b"))) :=
    .or (.term (.factor (hfactor _))) (.factor (hfactor _))
  have hc : Derives .whole [.atom (Atom.expr "a"), .or, .atom (.expr "b"), .and, .atom .oidIs]
      (.or (.atom (.expr "a")) (.and (.atom (.expr "b")) (.atom .oidIs))) :=
    .or (.term (.factor (hfactor _))) (.and (.factor (hfactor _)) (hfactor _))
  have hfound := hall _ _ (.cond he) _ hc (fun s _ _ => some (decide (s = "a"))) 2 1 ()
  exact absurd (hfound.mp rfl).2 (by decide)

end Nodeoze.Database
