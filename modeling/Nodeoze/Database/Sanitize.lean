import Nodeoze.Any.Pointer
import Nodeoze.Lib.Quoted

/-!
# Values in SQL

`database::value` makes an SQL literal of a string: `sanitize` writes each quote twice, and a quote is put
before and behind.  SQL reads the string back from it and goes on behind it, whatever the string is.
-/

namespace Nodeoze.Database

open Any (text)

def quote : UInt8 := 39

/-- `database::sanitize` -/
def sanitize (str : Key) : Key :=
  str.foldl (fun output c => if c = quote then output ++ [quote, quote] else output ++ [c]) []

/-- `database::value( const std::string &, bool )` -/
def value (val : Key) (quoted : Bool) : Key :=
  (if quoted then [quote] else []) ++ (sanitize val ++ if quoted then [quote] else [])

/-- `database::value( const nodeoze::any & )`, given the text of the value in JSON. -/
def jsonValue (deflated : Key) : Key := text "JSON( '" ++ (sanitize deflated ++ text "' )")

/-- The loop of `sanitize`, from any output. -/
theorem foldl_sanitize (str output : Key) :
    str.foldl (fun output c => if c = quote then output ++ [quote, quote] else output ++ [c]) output
      = output ++ Quoted.doubled quote str := by
  induction str generalizing output with
  | nil => simp [Quoted.doubled]
  | cons c str ih =>
    rw [List.foldl_cons, ih]
    by_cases hc : c = quote
    · rw [if_pos hc, hc, Quoted.doubled_quote, List.append_assoc]
      rfl
    · rw [if_neg hc, Quoted.doubled_ne hc, List.append_assoc]
      rfl

theorem sanitize_eq (str : Key) : sanitize str = Quoted.doubled quote str :=
  (foldl_sanitize str []).trans (List.nil_append _)

theorem value_append (val t : Key) :
    value val true ++ t = quote :: (Quoted.doubled quote val ++ quote :: t) := by
  simp [value, sanitize_eq]

/-- What SQL reads as a literal with this value is the text that `value` makes. -/
theorem literal_value_iff {s t l : Key} :
    Quoted.literal quote l = some (s, t) ↔ l = value s true ++ t ∧ t.head? ≠ some quote := by
  rw [value_append, Quoted.literal_iff]

/-- SQL reads one literal from the text of a value, and the value of the literal is the string. -/
theorem literal_value (s : Key) {t : Key} (ht : t.head? ≠ some quote) :
    Quoted.literal quote (value s true ++ t) = some (s, t) := literal_value_iff.mpr ⟨rfl, ht⟩

/-- The string looks like the end of a literal with a condition behind it. -/
theorem injection_quoted :
    value (text "' OR ''='") true = text "''' OR ''''='''" ∧
      Quoted.literal quote (value (text "' OR ''='") true ++ text ";") = some (text "' OR ''='", text ";") :=
  ⟨by decide, literal_value (text "' OR ''='") (by decide)⟩

/-- The argument of `JSON` is the text of the value. -/
theorem literal_jsonValue (deflated t : Key) :
    ∃ l, jsonValue deflated ++ t = text "JSON( " ++ l ∧
      Quoted.literal quote l = some (deflated, text " )" ++ t) := by
  refine ⟨value deflated true ++ (text " )" ++ t), ?_, ?_⟩
  · simp [jsonValue, value, text, quote]
  · exact literal_value_iff.mpr ⟨rfl, by simp [text, quote]⟩

end Nodeoze.Database
