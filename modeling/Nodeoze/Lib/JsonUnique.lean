import Nodeoze.Lib.JsonText

/-!
# A text stands for one tree

The grammar of JSON is unambiguous: a document is the text of one tree only.  Two texts of which one goes
on where the other ends, or both go on, are the same if what follows them cannot be part of a value.
-/

namespace JsonText

variable {ν : Type} {L : Lexemes ν}

/-- What follows a value on the inside of an array or of an object. -/
def Delimited (a : List UInt8) : Prop := ∀ x ∈ a.head?, x = comma ∨ x = closeArray ∨ x = closeObject

/-- What follows is no part of a number. -/
def Stops (a : List UInt8) : Prop := ∀ x ∈ a.head?, isNumeric x = false

/-- A list is divided in one way where a property of its elements ends. -/
theorem span_unique {α : Type} {p : α → Bool} {w v a b : List α} (hw : ∀ x ∈ w, p x = true)
    (hv : ∀ x ∈ v, p x = true) (ha : ∀ x ∈ a.head?, p x = false) (hb : ∀ x ∈ b.head?, p x = false)
    (h : w ++ a = v ++ b) : w = v ∧ a = b := by
  induction w generalizing v with
  | nil =>
    cases v with
    | nil => exact ⟨rfl, h⟩
    | cons c v =>
      have hc := hv c List.mem_cons_self
      rw [ha c (by rw [← List.nil_append a, h]; rfl)] at hc
      cases hc
  | cons c w ih =>
    cases v with
    | nil =>
      have hc := hw c List.mem_cons_self
      rw [hb c (by rw [← List.nil_append b, ← h]; rfl)] at hc
      cases hc
    | cons d v =>
      obtain ⟨rfl, hrest⟩ := List.cons.inj h
      obtain ⟨rfl, hab⟩ := ih (fun x hx => hw x (List.mem_cons_of_mem c hx))
        (fun x hx => hv x (List.mem_cons_of_mem c hx)) hrest
      exact ⟨rfl, hab⟩

theorem Body.append {t u : List UInt8} (ht : Body t) (hu : Body u) : Body (t ++ u) := by
  induction ht with
  | nil => exact hu
  | plain hquote hbackslash _ ih => exact .plain hquote hbackslash ih
  | escape _ ih => exact .escape ih

theorem body_unique {t u a b : List UInt8} (ht : Body t) (hu : Body u)
    (h : t ++ quote :: a = u ++ quote :: b) : t = u ∧ a = b := by
  induction ht generalizing u with
  | nil =>
    cases hu with
    | nil => exact ⟨rfl, (List.cons.inj h).2⟩
    | plain hquote _ _ => exact absurd (List.cons.inj h).1.symm hquote
    | escape _ =>
      have hhead := (List.cons.inj h).1
      contradiction
  | plain hquote hbackslash _ ih =>
    cases hu with
    | nil => exact absurd (List.cons.inj h).1 hquote
    | plain _ _ hu =>
      obtain ⟨rfl, hrest⟩ := List.cons.inj h
      obtain ⟨rfl, hab⟩ := ih hu hrest
      exact ⟨rfl, hab⟩
    | escape _ => exact absurd (List.cons.inj h).1 hbackslash
  | escape _ ih =>
    cases hu with
    | nil =>
      have hhead := (List.cons.inj h).1
      contradiction
    | plain _ hbackslash _ => exact absurd (List.cons.inj h).1.symm hbackslash
    | escape hu =>
      obtain ⟨rfl, hrest⟩ := List.cons.inj (List.cons.inj h).2
      obtain ⟨rfl, hab⟩ := ih hu hrest
      exact ⟨rfl, hab⟩

/-! ## The first byte -/

inductive Shape
  | null
  | yes
  | no
  | number
  | string
  | array
  | object
  deriving DecidableEq

def JsonTree.shape : JsonTree ν → Shape
  | .null => .null
  | .boolean true => .yes
  | .boolean false => .no
  | .number _ => .number
  | .string _ => .string
  | .array _ => .array
  | .object _ => .object

/-- What the first byte of a text says about its value. -/
def shapeOf (b : UInt8) : Shape :=
  if b = 0x6e then .null
  else if b = 0x74 then .yes
  else if b = 0x66 then .no
  else if b = quote then .string
  else if b = openArray then .array
  else if b = openObject then .object
  else .number

theorem shapeOf_isNumeric {b : UInt8} (hb : isNumeric b = true) : shapeOf b = .number := by
  have hne : ∀ c, isNumeric c = false → b ≠ c := by
    rintro c hc rfl
    rw [hb] at hc
    cases hc
  rw [shapeOf, if_neg (hne _ rfl), if_neg (hne _ rfl), if_neg (hne _ rfl), if_neg (hne _ rfl),
    if_neg (hne _ rfl), if_neg (hne _ rfl)]

theorem text_shape {j : JsonTree ν} {t : List UInt8} (ht : Text L j t) :
    ∃ b u, t = b :: u ∧ shapeOf b = j.shape ∧ isBlank b = false ∧ b ≠ closeArray := by
  cases ht with
  | null => exact ⟨_, _, rfl, rfl, rfl, by decide⟩
  | yes => exact ⟨_, _, rfl, rfl, rfl, by decide⟩
  | no => exact ⟨_, _, rfl, rfl, rfl, by decide⟩
  | @number n t hn =>
    cases t with
    | nil =>
      rw [L.number_ne_nil] at hn
      contradiction
    | cons b u =>
      have hb := L.number_numeric _ n hn b List.mem_cons_self
      refine ⟨b, u, rfl, shapeOf_isNumeric hb, (headOf_isNumeric hb).1, ?_⟩
      rintro rfl
      cases hb
  | string _ _ => exact ⟨_, _, rfl, rfl, rfl, by decide⟩
  | emptyArray _ => exact ⟨_, _, rfl, rfl, rfl, by decide⟩
  | array _ => exact ⟨_, _, rfl, rfl, rfl, by decide⟩
  | emptyObject _ => exact ⟨_, _, rfl, rfl, rfl, by decide⟩
  | object _ => exact ⟨_, _, rfl, rfl, rfl, by decide⟩

/-! ## One tree -/

/-- Where a text of the tree stands, no other text does. -/
def Unique (L : Lexemes ν) (j : JsonTree ν) : Prop :=
  ∀ (i : JsonTree ν) (t u a b : List UInt8), Text L j t → Text L i u → Stops a → Stops b →
    t ++ a = u ++ b → i = j ∧ t = u

theorem not_isNumeric_of_isBlank {b : UInt8} (hb : isBlank b = true) : isNumeric b = false := by
  simp only [isBlank, Bool.or_eq_true, beq_iff_eq] at hb
  rcases hb with ((rfl | rfl) | rfl) | rfl <;> rfl

theorem Delimited.stops {a : List UInt8} (ha : Delimited a) : Stops a := by
  intro x hx
  rcases ha x hx with rfl | rfl | rfl <;> rfl

theorem Delimited.not_blank {a : List UInt8} (ha : Delimited a) : ∀ x ∈ a.head?, isBlank x = false := by
  intro x hx
  rcases ha x hx with rfl | rfl | rfl <;> rfl

theorem Stops.after_blank {w a : List UInt8} (hw : Blank w) (ha : Stops a) : Stops (w ++ a) := by
  cases w with
  | nil => exact ha
  | cons c w =>
    intro x hx
    obtain rfl : c = x := Option.some.inj hx
    exact not_isNumeric_of_isBlank (hw c List.mem_cons_self)

theorem text_not_blank {j : JsonTree ν} {t : List UInt8} (ht : Text L j t) (a : List UInt8) :
    ∀ x ∈ (t ++ a).head?, isBlank x = false := by
  obtain ⟨b, u, rfl, -, hblank, -⟩ := text_shape ht
  intro x hx
  obtain rfl : b = x := Option.some.inj hx
  exact hblank

theorem document_unique {i j : JsonTree ν} {t u a b : List UInt8} (hj : Unique L j) (ht : Document L j t)
    (hu : Document L i u) (ha : Delimited a) (hb : Delimited b) (h : t ++ a = u ++ b) :
    i = j ∧ t = u ∧ a = b := by
  obtain @⟨_, w, t, w', hw, ht, hw'⟩ := ht
  obtain @⟨_, v, u, v', hv, hu, hv'⟩ := hu
  simp only [List.append_assoc] at h ⊢
  obtain ⟨rfl, hrest⟩ := span_unique hw hv (text_not_blank ht _) (text_not_blank hu _) h
  obtain ⟨rfl, rfl⟩ := hj i t u _ _ ht hu (ha.stops.after_blank hw') (hb.stops.after_blank hv') hrest
  obtain ⟨rfl, rfl⟩ := span_unique hw' hv' ha.not_blank hb.not_blank (List.append_cancel_left hrest)
  exact ⟨rfl, rfl, rfl⟩

theorem delimited_cons {x : UInt8} (hx : x = comma ∨ x = closeArray ∨ x = closeObject) (a : List UInt8) :
    Delimited (x :: a) := by
  intro y hy
  obtain rfl : x = y := Option.some.inj hy
  exact hx

theorem elems_unique {js is : List (JsonTree ν)} {t u a b : List UInt8} (hjs : ∀ j ∈ js, Unique L j)
    (ht : Elems L js t) (hu : Elems L is u) (h : t ++ closeArray :: a = u ++ closeArray :: b) :
    is = js ∧ t = u ∧ a = b := by
  have hclose : ∀ c, Delimited (closeArray :: c) := delimited_cons (.inr (.inl rfl))
  have hcomma : ∀ c, Delimited (comma :: c) := delimited_cons (.inl rfl)
  induction js generalizing is t u with
  | nil => cases ht
  | cons j js ih =>
    have hj := hjs j List.mem_cons_self
    cases ht with
    | last ht =>
      cases hu with
      | last hu =>
        obtain ⟨rfl, rfl, hab⟩ := document_unique hj ht hu (hclose a) (hclose b) h
        exact ⟨rfl, rfl, (List.cons.inj hab).2⟩
      | more hu _ =>
        rw [List.append_assoc] at h
        have hhead := (document_unique hj ht hu (hclose a) (hcomma _) h).2.2
        cases hhead
    | more ht ht' =>
      cases hu with
      | last hu =>
        rw [List.append_assoc] at h
        have hhead := (document_unique hj ht hu (hcomma _) (hclose b) h).2.2
        cases hhead
      | more hu hu' =>
        rw [List.append_assoc, List.append_assoc] at h
        obtain ⟨rfl, rfl, hrest⟩ := document_unique hj ht hu (hcomma _) (hcomma _) h
        obtain ⟨rfl, rfl, hab⟩ := ih (fun i hi => hjs i (List.mem_cons_of_mem _ hi)) ht' hu'
          (List.cons.inj hrest).2
        exact ⟨rfl, rfl, hab⟩

theorem member_unique {m n : List UInt8 × JsonTree ν} {t u a b : List UInt8} (hm : Unique L m.2)
    (ht : Member L m t) (hu : Member L n u) (ha : Delimited a) (hb : Delimited b) (h : t ++ a = u ++ b) :
    n = m ∧ t = u ∧ a = b := by
  obtain @⟨key, k, w, w', t, j, hw, hk, hkey, hw', ht⟩ := ht
  obtain @⟨key', k', v, v', u, i, hv, hk', hkey', hv', hu⟩ := hu
  have hcolon : ∀ c x, x ∈ (colon :: c : List UInt8).head? → isBlank x = false := by
    intro c x hx
    obtain rfl : colon = x := Option.some.inj hx
    rfl
  have hquote : ∀ c x, x ∈ (quote :: c : List UInt8).head? → isBlank x = false := by
    intro c x hx
    obtain rfl : quote = x := Option.some.inj hx
    rfl
  simp only [List.append_assoc, List.cons_append, List.nil_append] at h ⊢
  obtain ⟨rfl, hkeys⟩ := span_unique hw hv (hquote _) (hquote _) h
  obtain ⟨rfl, hblanks⟩ := body_unique hk hk' (List.cons.inj hkeys).2
  obtain ⟨rfl, hvalues⟩ := span_unique hw' hv' (hcolon _) (hcolon _) hblanks
  obtain ⟨rfl, rfl, rfl⟩ := document_unique hm ht hu ha hb (List.cons.inj hvalues).2
  obtain rfl := Option.some.inj (hkey.symm.trans hkey')
  exact ⟨rfl, rfl, rfl⟩

theorem members_unique {ms ns : List (List UInt8 × JsonTree ν)} {t u a b : List UInt8}
    (hms : ∀ m ∈ ms, Unique L m.2) (ht : Members L ms t) (hu : Members L ns u)
    (h : t ++ closeObject :: a = u ++ closeObject :: b) : ns = ms ∧ t = u ∧ a = b := by
  have hclose : ∀ c, Delimited (closeObject :: c) := delimited_cons (.inr (.inr rfl))
  have hcomma : ∀ c, Delimited (comma :: c) := delimited_cons (.inl rfl)
  induction ms generalizing ns t u with
  | nil => cases ht
  | cons m ms ih =>
    have hm := hms m List.mem_cons_self
    cases ht with
    | last ht =>
      cases hu with
      | last hu =>
        obtain ⟨rfl, rfl, hab⟩ := member_unique hm ht hu (hclose a) (hclose b) h
        exact ⟨rfl, rfl, (List.cons.inj hab).2⟩
      | more hu _ =>
        rw [List.append_assoc] at h
        have hhead := (member_unique hm ht hu (hclose a) (hcomma _) h).2.2
        cases hhead
    | more ht ht' =>
      cases hu with
      | last hu =>
        rw [List.append_assoc] at h
        have hhead := (member_unique hm ht hu (hcomma _) (hclose b) h).2.2
        cases hhead
      | more hu hu' =>
        rw [List.append_assoc, List.append_assoc] at h
        obtain ⟨rfl, rfl, hrest⟩ := member_unique hm ht hu (hcomma _) (hcomma _) h
        obtain ⟨rfl, rfl, hab⟩ := ih (fun n hn => hms n (List.mem_cons_of_mem _ hn)) ht' hu'
          (List.cons.inj hrest).2
        exact ⟨rfl, rfl, hab⟩

/-- What begins an array or an object that is not empty is no bracket that closes one. -/
theorem elems_head {js : List (JsonTree ν)} {t w a b : List UInt8} (hw : Blank w) (ht : Elems L js t) :
    w ++ closeArray :: a ≠ t ++ b := by
  obtain ⟨j, s, c, hs, rfl⟩ : ∃ j s c, Document L j s ∧ t = s ++ c := by
    cases ht with
    | last ht => exact ⟨_, t, [], ht, (List.append_nil t).symm⟩
    | more ht _ => exact ⟨_, _, _, ht, rfl⟩
  obtain @⟨_, v, s, v', hv, hs, -⟩ := hs
  intro h
  simp only [List.append_assoc] at h
  have hclose : ∀ x ∈ (closeArray :: a : List UInt8).head?, isBlank x = false := by
    intro x hx
    obtain rfl : closeArray = x := Option.some.inj hx
    rfl
  have hrest := (span_unique hw hv hclose (text_not_blank hs _) h).2
  obtain ⟨x, u, rfl, -, -, hx⟩ := text_shape hs
  exact hx (List.cons.inj hrest).1.symm

theorem members_head {ms : List (List UInt8 × JsonTree ν)} {t w a b : List UInt8} (hw : Blank w)
    (ht : Members L ms t) : w ++ closeObject :: a ≠ t ++ b := by
  obtain ⟨m, s, c, hs, rfl⟩ : ∃ m s c, Member L m s ∧ t = s ++ c := by
    cases ht with
    | last ht => exact ⟨_, t, [], ht, (List.append_nil t).symm⟩
    | more ht _ => exact ⟨_, _, _, ht, rfl⟩
  obtain @⟨key, k, v, v', s, j, hv, -, -, -, -⟩ := hs
  intro h
  simp only [List.append_assoc, List.cons_append] at h
  have hclose : ∀ x ∈ (closeObject :: a : List UInt8).head?, isBlank x = false := by
    intro x hx
    obtain rfl : closeObject = x := Option.some.inj hx
    rfl
  have hquote : ∀ c x, x ∈ (quote :: c : List UInt8).head? → isBlank x = false := by
    intro c x hx
    obtain rfl : quote = x := Option.some.inj hx
    rfl
  have hrest := (span_unique hw hv hclose (hquote _) h).2
  have hhead := (List.cons.inj hrest).1
  contradiction

theorem shape_unique {i j : JsonTree ν} {t u a b : List UInt8} (ht : Text L j t) (hu : Text L i u)
    (h : t ++ a = u ++ b) : i.shape = j.shape := by
  obtain ⟨x, t, rfl, hx, -, -⟩ := text_shape ht
  obtain ⟨y, u, rfl, hy, -, -⟩ := text_shape hu
  obtain ⟨rfl, -⟩ := List.cons.inj h
  exact hy.symm.trans hx

/-- A value with an end of its own ends there. -/
theorem enclosed_unique {x y : UInt8} {t u a b : List UInt8} (h : x :: t ++ [y] ++ a = x :: u ++ [y] ++ b) :
    t ++ y :: a = u ++ y :: b := by
  simpa using h

theorem unique (L : Lexemes ν) (j : JsonTree ν) : Unique L j := by
  induction j using JsonTree.induct with
  | null =>
    intro i t u a b ht hu _ _ h
    have hshape := shape_unique ht hu h
    cases ht
    cases hu with
    | null => exact ⟨rfl, rfl⟩
    | _ => cases hshape
  | boolean c =>
    intro i t u a b ht hu _ _ h
    have hshape := shape_unique ht hu h
    cases ht with
    | yes =>
      cases hu with
      | yes => exact ⟨rfl, rfl⟩
      | _ => cases hshape
    | no =>
      cases hu with
      | no => exact ⟨rfl, rfl⟩
      | _ => cases hshape
  | number n =>
    intro i t u a b ht hu ha hb h
    have hshape := shape_unique ht hu h
    cases ht with
    | number hn =>
      cases hu with
      | number hm =>
        obtain ⟨rfl, -⟩ := span_unique (L.number_numeric _ _ hn) (L.number_numeric _ _ hm) ha hb h
        obtain rfl := Option.some.inj (hn.symm.trans hm)
        exact ⟨rfl, rfl⟩
      | _ => cases hshape
  | string bs =>
    intro i t u a b ht hu _ _ h
    have hshape := shape_unique ht hu h
    cases ht with
    | string ht hbs =>
      cases hu with
      | string hu hcs =>
        obtain ⟨rfl, -⟩ := body_unique ht hu (enclosed_unique h)
        obtain rfl := Option.some.inj (hbs.symm.trans hcs)
        exact ⟨rfl, rfl⟩
      | _ => cases hshape
  | array js ih =>
    intro i t u a b ht hu _ _ h
    have hshape := shape_unique ht hu h
    have hclose : ∀ c x, x ∈ (closeArray :: c : List UInt8).head? → isBlank x = false :=
      fun c => (delimited_cons (.inr (.inl rfl)) c).not_blank
    cases ht with
    | emptyArray hw =>
      cases hu with
      | emptyArray hv =>
        obtain ⟨rfl, -⟩ := span_unique hw hv (hclose a) (hclose b) (enclosed_unique h)
        exact ⟨rfl, rfl⟩
      | array hu => exact absurd (enclosed_unique h) (elems_head hw hu)
      | _ => cases hshape
    | array ht =>
      cases hu with
      | emptyArray hv => exact absurd (enclosed_unique h).symm (elems_head hv ht)
      | array hu =>
        obtain ⟨rfl, rfl, -⟩ := elems_unique ih ht hu (enclosed_unique h)
        exact ⟨rfl, rfl⟩
      | _ => cases hshape
  | object ms ih =>
    intro i t u a b ht hu _ _ h
    have hshape := shape_unique ht hu h
    have hclose : ∀ c x, x ∈ (closeObject :: c : List UInt8).head? → isBlank x = false :=
      fun c => (delimited_cons (.inr (.inr rfl)) c).not_blank
    cases ht with
    | emptyObject hw =>
      cases hu with
      | emptyObject hv =>
        obtain ⟨rfl, -⟩ := span_unique hw hv (hclose a) (hclose b) (enclosed_unique h)
        exact ⟨rfl, rfl⟩
      | object hu => exact absurd (enclosed_unique h) (members_head hw hu)
      | _ => cases hshape
    | object ht =>
      cases hu with
      | emptyObject hv => exact absurd (enclosed_unique h).symm (members_head hv ht)
      | object hu =>
        obtain ⟨rfl, rfl, -⟩ := members_unique ih ht hu (enclosed_unique h)
        exact ⟨rfl, rfl⟩
      | _ => cases hshape

/-- A document is the text of one tree. -/
theorem tree_unique {i j : JsonTree ν} {s : List UInt8} (hi : Document L i s) (hj : Document L j s) :
    i = j := by
  have hnil : Delimited [] := fun x hx => nomatch hx
  exact (document_unique (unique L j) hj hi hnil hnil rfl).1

end JsonText
