import Nodeoze.Net.Uri

/-!
# What is printed of a URI

`to_string` prints a text that `assign` accepts again, if there is a scheme.  What comes back is the
same but for what `split` and C strings drop: the empty segments of the path, and what is behind an
encoded zero; and a port 0 is not printed, so that the scheme may put its own in the place.
-/

namespace Nodeoze.Net.Uri

open Any (text)
open Rfc3986

/-! ## Tokens -/

theorem splitFrom_eq (delim : UInt8) (token str : Text) :
    splitFrom delim token str = ((str.splitOn delim).modifyHead (token ++ ·)).filter fun t => !t.isEmpty := by
  induction str generalizing token with
  | nil =>
    cases token with
    | nil => simp [splitFrom]
    | cons b t => simp [splitFrom]
  | cons c cs ih =>
    rw [splitFrom, List.splitOn_cons_eq_if_modifyHead]
    by_cases hc : c = delim
    · have hrest : splitFrom delim [] cs = (cs.splitOn delim).filter fun t => !t.isEmpty := by
        rw [ih]
        congr 1
        cases cs.splitOn delim <;> rfl
      rw [if_pos hc, if_pos (beq_iff_eq.mpr hc), hrest]
      cases token with
      | nil => simp
      | cons b t => simp
    · rw [if_neg hc, if_neg (by simpa using hc), ih, List.modifyHead_modifyHead]
      congr 2
      funext t
      simp

/-- `split` finds the pieces that are not empty. -/
theorem split_eq (str : Text) (delim : UInt8) :
    split str delim = (str.splitOn delim).filter fun t => !t.isEmpty := by
  rw [split, splitFrom_eq]
  congr 1
  cases str.splitOn delim <;> rfl

theorem split_of_not_mem {str : Text} {delim : UInt8} (h : delim ∉ str) (hne : str ≠ []) :
    split str delim = [str] := by
  rw [split_eq, List.splitOn_eq_singleton h]
  simpa using hne

/-- A token is a part of the text, without the delimiter, that begins and ends no encoded byte. -/
theorem mem_splitFrom {delim : UInt8} {token str t : Text} (ht : t ∈ splitFrom delim token str) :
    t ≠ [] ∧ (delim ∉ token → delim ∉ t) ∧ (∀ ok, delim ≠ percent → isHex delim = false →
      Encoded ok (token ++ str) → Encoded ok t) := by
  have hself : token.length > 0 → token ≠ [] := fun h hnil => by simp [hnil] at h
  induction str generalizing token with
  | nil =>
    rw [splitFrom] at ht
    split_ifs at ht with hlength
    · rw [List.mem_singleton.mp ht]
      refine ⟨hself hlength, id, fun ok _ _ henc => ?_⟩
      rwa [List.append_nil] at henc
    · cases ht
  | cons c cs ih =>
    rw [splitFrom] at ht
    by_cases hc : c = delim
    · subst hc
      rw [if_pos rfl] at ht
      have hbehind : t ∈ splitFrom c [] cs → t ≠ [] ∧ (c ∉ token → c ∉ t) ∧ (∀ ok, c ≠ percent →
          isHex c = false → Encoded ok (token ++ c :: cs) → Encoded ok t) := by
        intro hmem
        obtain ⟨hne, hdelim, henc⟩ := ih hmem (fun h => by simp at h)
        exact ⟨hne, fun _ => hdelim (by simp), fun ok hp hx h => henc ok hp hx (h.cut hp hx).2⟩
      split_ifs at ht with hlength
      · rcases List.mem_cons.mp ht with rfl | ht
        · exact ⟨hself hlength, id, fun ok hp hx h => (h.cut hp hx).1⟩
        · exact hbehind ht
      · exact hbehind ht
    · rw [if_neg hc] at ht
      obtain ⟨hne, hdelim, henc⟩ := ih ht (fun _ => by simp)
      refine ⟨hne, fun h => hdelim ?_, fun ok hp hx h => henc ok hp hx (by simpa using h)⟩
      simpa [h] using Ne.symm hc

theorem splitFrom_eq_nil_iff (delim : UInt8) (token str : Text) :
    splitFrom delim token str = [] ↔ token = [] ∧ ∀ b ∈ str, b = delim := by
  induction str generalizing token with
  | nil =>
    rw [splitFrom]
    cases token <;> simp
  | cons c cs ih =>
    rw [splitFrom]
    by_cases hc : c = delim
    · rw [if_pos hc]
      cases token with
      | nil => simp [ih, hc]
      | cons b t => simp
    · rw [if_neg hc, ih]
      simp [hc]

/-! ## The user-info -/

theorem readUserinfo_eq_none_iff (t : Text) : readUserinfo t = none ↔ t ≠ [] ∧ ∀ b ∈ t, b = colon := by
  have hnil := splitFrom_eq_nil_iff colon [] t
  rw [eq_self_iff_true, true_and] at hnil
  rw [← hnil, ← split, readUserinfo]
  split_ifs with hlength
  · cases hsplit : split t colon with
    | nil => simpa using List.length_pos_iff.mp hlength
    | cons u us => simp
  · have ht : t = [] := by simpa using hlength
    simp [ht]

theorem exists_readUserinfo_iff (userinfo : Option Text) :
    (∃ names, readUserinfo (userinfo.getD []) = some names) ↔
      ∀ t ∈ userinfo, t = [] ∨ ∃ b ∈ t, b ≠ colon := by
  have hnone := readUserinfo_eq_none_iff (userinfo.getD [])
  rw [← Option.isSome_iff_exists, Option.isSome_iff_ne_none, ne_eq, hnone]
  cases userinfo with
  | none => simp
  | some t => simp [or_iff_not_imp_left]

/-- What the user-info is read as. -/
structure Names (n p : Text) : Prop where
  username : Encoded isUserinfoByte n ∧ colon ∉ n
  password : Encoded isUserinfoByte p ∧ colon ∉ p
  both : n = [] → p = []

theorem names_of_read {t username password : Text} (ht : Encoded isUserinfoByte t)
    (h : readUserinfo t = some (username, password)) : Names username password := by
  have htoken : ∀ u ∈ split t colon, u ≠ [] ∧ Encoded isUserinfoByte u ∧ colon ∉ u := by
    intro u hu
    obtain ⟨hne, hcolon, henc⟩ := mem_splitFrom hu
    exact ⟨hne, henc _ (by decide) (by decide) ht, hcolon (by simp)⟩
  unfold readUserinfo at h
  split_ifs at h
  · split at h
    · cases h
    · rename_i u us hsplit
      obtain ⟨rfl, hpassword⟩ := Prod.mk.inj (Option.some.inj h)
      obtain ⟨hne, henc, hcolon⟩ := htoken u (by simp [hsplit])
      refine ⟨⟨henc, hcolon⟩, ?_, fun hnil => absurd hnil hne⟩
      split at hpassword
      · rename_i p
        obtain ⟨-, hp⟩ := htoken p (by simp [hsplit])
        rw [← hpassword]
        exact hp
      · rw [← hpassword]
        exact ⟨.nil, by simp⟩
  · obtain ⟨rfl, rfl⟩ := Prod.mk.inj (Option.some.inj h)
    exact ⟨⟨.nil, by simp⟩, ⟨.nil, by simp⟩, fun _ => rfl⟩

/-- The user-info that is printed is read as it was. -/
theorem readUserinfo_printed {u : Uri} (h : Names u.username u.password) :
    readUserinfo u.userinfo = some (u.username, u.password) ∧ Encoded isUserinfoByte u.userinfo := by
  have hlength : ∀ {t : Text}, t ≠ [] → t.length > 0 := List.length_pos_iff.mpr
  obtain ⟨hu, hucolon⟩ := h.username
  obtain ⟨hp, hpcolon⟩ := h.password
  unfold userinfo
  by_cases husername : u.username = []
  · rw [h.both husername, husername]
    exact ⟨rfl, .nil⟩
  · rw [if_pos (hlength husername)]
    by_cases hpassword : u.password = []
    · rw [hpassword, if_neg (by simp), readUserinfo, if_pos (hlength husername), split_of_not_mem hucolon husername]
      exact ⟨rfl, hu⟩
    · have hsplit : split (u.username ++ colon :: u.password) colon = [u.username, u.password] := by
        rw [split_eq, List.splitOn_append_cons_self_of_not_mem hucolon, List.splitOn_eq_singleton hpcolon]
        simp [husername, hpassword]
      rw [if_pos (hlength hpassword), readUserinfo, if_pos (hlength (by simp)), hsplit]
      exact ⟨rfl, hu.append (.char (by decide) (by decide) hp)⟩

/-! ## The port -/

theorem digit_of_isDigit {b : UInt8} (hb : isDigit b = true) :
    Any.isSpace b = false ∧ b ≠ 45 ∧ b ≠ 43 := by
  revert hb
  exact forall_byte (P := fun b => isDigit b = true → Any.isSpace b = false ∧ b ≠ 45 ∧ b ≠ 43)
    (by decide +kernel) b

/-- No digit is a blank or a sign. -/
theorem atoi_of_digits {t : Text} (ht : t.all isDigit = true) :
    atoi t = if (((Any.number t).getD 0 : Nat) : Int) < 2 ^ 31 then some (((Any.number t).getD 0 : Nat) : Int) else none := by
  have hdrop : t.dropWhile Any.isSpace = t := by
    cases t with
    | nil => rfl
    | cons b t =>
      rw [List.all_cons, Bool.and_eq_true] at ht
      exact List.dropWhile_cons_of_neg (by simp [(digit_of_isDigit ht.1).1])
  have hsign : ∀ {b rest}, t = b :: rest → b ≠ 45 ∧ b ≠ 43 := by
    rintro b rest rfl
    rw [List.all_cons, Bool.and_eq_true] at ht
    exact (digit_of_isDigit ht.1).2
  unfold atoi
  rw [hdrop]
  split
  · exact absurd rfl (hsign rfl).1
  · exact absurd rfl (hsign rfl).2
  · have hlow : -2 ^ 31 ≤ (((Any.number t).getD 0 : Nat) : Int) := by omega
    simp only [hlow, true_and]

theorem atoi_bounds {t : Text} (ht : t.all isDigit = true) {n : Int} (h : atoi t = some n) :
    0 ≤ n ∧ n < 2 ^ 31 := by
  rw [atoi_of_digits ht] at h
  split_ifs at h with hlt
  obtain rfl := Option.some.inj h
  exact ⟨Int.natCast_nonneg _, hlt⟩

theorem decimal_digits {n : Int} (hn : 0 ≤ n) : (decimal n).all isDigit = true := by
  rw [decimal, if_neg (Int.not_lt.mpr hn), List.all_eq_true]
  intro b hb
  have hdigit := Any.isDigit_of_mem_decimal hb
  simpa [isDigit, Any.isDigit] using hdigit

theorem atoi_decimal {n : Int} (hn : 0 ≤ n) (hlt : n < 2 ^ 31) : atoi (decimal n) = some n := by
  have hnumber : (((Any.number (decimal n)).getD 0 : Nat) : Int) = n := by
    rw [decimal, if_neg (Int.not_lt.mpr hn), Any.number_decimal]
    exact Int.natAbs_of_nonneg hn
  rw [atoi_of_digits (decimal_digits hn), hnumber, if_pos hlt]

theorem defaultPort_bounds (scheme : Text) : 0 ≤ defaultPort scheme ∧ defaultPort scheme < 2 ^ 31 := by
  unfold defaultPort
  split_ifs <;> omega

/-- The port comes back if it is not a 0 that the scheme has a port for. -/
theorem port_printed_iff {scheme : Text} {port : Option Text} {n : Int} (hport : readPort scheme port = some n) :
    (if n ≠ 0 then n else defaultPort scheme) = n ↔
      ∀ t ∈ port, ∃ n, atoi t = some n ∧ (n ≠ 0 ∨ defaultPort scheme = 0) := by
  cases port with
  | none =>
    rw [readPort] at hport
    rw [← Option.some.inj hport]
    simp
  | some t =>
    rw [readPort] at hport
    simp only [Option.mem_def, Option.some.injEq, forall_eq', hport, exists_eq_left']
    split_ifs with hzero
    · simp [hzero]
    · rw [not_not] at hzero
      simp [hzero]

/-! ## Encoded texts -/

theorem cstr_eq_self_iff (s : Text) : cstr s = s ↔ 0 ∉ s := by
  rw [cstr, List.takeWhile_eq_self_iff]
  constructor
  · intro h hmem
    exact absurd (h 0 hmem) (by decide)
  · intro h b hb
    rw [bne_iff_ne]
    rintro rfl
    exact h hb

section

variable {L : UriParser} (h : L.Documented)
include h

theorem encoded_encode (t : Text) : Encoded isUnreserved (encode L t) := h.encoded_escape _

theorem decode_encode (t : Text) : decode L (encode L t) = cstr t := by
  have hzero : 0 ∉ encode L t := (encoded_encode h t).not_mem (by decide)
  rw [decode, (cstr_eq_self_iff _).mpr hzero]
  exact h.unescape_escape _

theorem decode_of_not_mem {t : Text} (hzero : 0 ∉ t) (hpercent : percent ∉ t) : decode L t = t := by
  rw [decode, (cstr_eq_self_iff _).mpr hzero]
  exact h.unescape_plain t hpercent

theorem decode_scheme {t : Text} (ht : isScheme t = true) : decode L t = t := by
  apply decode_of_not_mem h
  · intro hmem
    exact absurd (isSchemeByte_of_mem ht hmem) (by decide)
  · intro hmem
    exact absurd (isSchemeByte_of_mem ht hmem) (by decide)

end

/-! ## The path -/

/-- The pieces between the slashes. -/
def pieces (texts : List Text) : List Text := texts.flatMap (·.splitOn slash)

theorem splitOn_flatMap (texts : List Text) :
    (texts.flatMap fun t => slash :: t).splitOn slash = [] :: pieces texts := by
  unfold pieces
  induction texts with
  | nil => rfl
  | cons t texts ih =>
    rw [List.flatMap_cons, List.flatMap_cons]
    cases texts with
    | nil =>
      have hsplit := List.splitOn_append_cons_self (a := slash) [] t
      simpa using hsplit
    | cons u texts =>
      have hrest := List.splitOn_append_cons_self (a := slash) [] (u ++ texts.flatMap fun t => slash :: t)
      have hsplit := List.splitOn_append_cons_self (a := slash) (slash :: t) (u ++ texts.flatMap fun t => slash :: t)
      have hfirst := List.splitOn_append_cons_self (a := slash) [] t
      simp only [List.flatMap_cons, List.nil_append, List.splitOn_nil, List.cons_append] at ih hrest hsplit hfirst ⊢
      rw [hrest, List.cons.injEq] at ih
      rw [hsplit, hfirst, ih.2, List.cons_append]

theorem slash_not_mem_piece {texts : List Text} {p : Text} (hp : p ∈ pieces texts) : slash ∉ p := by
  obtain ⟨t, -, ht⟩ := List.mem_flatMap.mp hp
  by_cases hnil : p = []
  · rw [hnil]
    exact List.not_mem_nil
  · have htoken : p ∈ split t slash := by
      rw [split_eq, List.mem_filter]
      exact ⟨ht, by simpa using hnil⟩
    exact (mem_splitFrom htoken).2.1 List.not_mem_nil

theorem flatMap_slash_injective {xs ys : List Text} (hx : ∀ p ∈ xs, slash ∉ p) (hy : ∀ p ∈ ys, slash ∉ p)
    (heq : (xs.flatMap fun t => slash :: t) = ys.flatMap fun t => slash :: t) : xs = ys := by
  have hpieces : ∀ {zs : List Text}, (∀ p ∈ zs, slash ∉ p) → pieces zs = zs := by
    intro zs hz
    induction zs with
    | nil => rfl
    | cons z zs ih =>
      have hrest := ih fun p hp => hz p (List.mem_cons_of_mem _ hp)
      rw [pieces] at hrest
      rw [pieces, List.flatMap_cons, hrest, List.splitOn_eq_singleton (hz z List.mem_cons_self)]
      rfl
  have hsplit := congrArg (List.splitOn slash) heq
  rw [splitOn_flatMap, splitOn_flatMap, hpieces hx, hpieces hy] at hsplit
  exact (List.cons.inj hsplit).2

theorem flatMap_pieces (texts : List Text) :
    ((pieces texts).flatMap fun t => slash :: t) = texts.flatMap fun t => slash :: t := by
  have hback : [slash].intercalate ((texts.flatMap fun t => slash :: t).splitOn slash)
      = texts.flatMap fun t => slash :: t := List.intercalate_splitOn slash
  rw [splitOn_flatMap] at hback
  rw [flatMap_slash, ← hback]
  cases pieces texts with
  | nil => rfl
  | cons p ps =>
    rw [if_neg (List.cons_ne_nil _ _), List.intercalate_cons_cons]
    rfl

/-- The path of some segments. -/
def joined (texts : List Text) : Text :=
  if texts = [] then [slash] else texts.flatMap fun t => slash :: t

theorem readPath_eq (L : UriParser) (segments : List Text) :
    readPath L segments = joined (segments.map (decode L)) := by
  have hfold : ∀ path : Text, segments.foldl (fun path t => path ++ slash :: decode L t) path
      = path ++ segments.flatMap fun t => slash :: decode L t := by
    induction segments with
    | nil => simp
    | cons t segments ih =>
      intro path
      rw [List.foldl_cons, ih, List.flatMap_cons, List.append_assoc]
  rw [readPath, hfold, List.nil_append, joined, List.flatMap_map]
  cases segments with
  | nil => rfl
  | cons t segments => simp

/-- The pieces that `split` and a C string leave as they are. -/
theorem map_filter_eq_self_iff (ps : List Text) :
    (ps.filter fun t => !t.isEmpty).map cstr = ps ↔ ∀ p ∈ ps, p ≠ [] ∧ 0 ∉ p := by
  constructor
  · intro heq
    have hlength : (ps.filter fun t => !t.isEmpty).length = ps.length := by
      rw [← List.length_map cstr, heq]
    have hne := List.length_filter_eq_length_iff.mp hlength
    have hmap : ps.map cstr = ps.map id := by
      rw [List.filter_eq_self.mpr hne] at heq
      rw [heq, List.map_id]
    intro p hp
    exact ⟨by simpa using hne p hp, (cstr_eq_self_iff p).mp (List.map_inj_left.mp hmap p hp)⟩
  · intro hall
    have hfilter : (ps.filter fun t => !t.isEmpty) = ps := by
      rw [List.filter_eq_self]
      intro p hp
      simpa using (hall p hp).1
    have hmap : ps.map cstr = ps.map id := by
      apply List.map_inj_left.mpr
      intro p hp
      exact (cstr_eq_self_iff p).mpr (hall p hp).2
    rw [hfilter, hmap, List.map_id]

theorem joined_eq_slash_iff (texts : List Text) : joined texts = [slash] ↔ texts = [] ∨ texts = [[]] := by
  unfold joined
  cases texts with
  | nil => simp
  | cons t texts =>
    cases texts with
    | nil => simp
    | cons u texts => simp

/-- The path is what it was if it is a slash, or if no piece of a segment is empty or has a zero. -/
theorem joined_split_iff (texts : List Text) :
    joined (if joined texts ≠ [slash] then (split (joined texts) slash).map cstr else []) = joined texts ↔
      texts = [[]] ∨ ∀ t ∈ texts, ∀ p ∈ t.splitOn slash, p ≠ [] ∧ 0 ∉ p := by
  by_cases hslash : joined texts = [slash]
  · rw [hslash]
    rcases (joined_eq_slash_iff texts).mp hslash with rfl | rfl
    · simp [joined]
    · simp [joined]
  · obtain ⟨hnil, hsingle⟩ := not_or.mp (mt (joined_eq_slash_iff texts).mpr hslash)
    have hpieces : (∀ t ∈ texts, ∀ p ∈ t.splitOn slash, p ≠ [] ∧ 0 ∉ p) ↔
        ∀ p ∈ pieces texts, p ≠ [] ∧ 0 ∉ p := by
      rw [pieces, List.forall_mem_flatMap]
    have hpath : joined texts = (pieces texts).flatMap fun t => slash :: t := by
      rw [flatMap_pieces, joined, if_neg hnil]
    have hsplit : split (joined texts) slash = (pieces texts).filter fun t => !t.isEmpty := by
      rw [split_eq, joined, if_neg hnil, splitOn_flatMap]
      rfl
    rw [if_pos hslash, hsplit, or_iff_right hsingle, hpieces, ← map_filter_eq_self_iff]
    generalize hq : ((pieces texts).filter fun t => !t.isEmpty).map cstr = qs
    have hqslash : ∀ p ∈ qs, slash ∉ p := by
      rw [← hq]
      intro p hp
      obtain ⟨p', hp', rfl⟩ := List.mem_map.mp hp
      intro hmem
      exact slash_not_mem_piece (List.mem_of_mem_filter hp') (List.takeWhile_subset _ hmem)
    constructor
    · intro heq
      by_cases hqs : qs = []
      · rw [← heq, joined, if_pos hqs] at hslash
        exact absurd rfl hslash
      · rw [hpath, joined, if_neg hqs] at heq
        exact flatMap_slash_injective hqslash (fun p hp => slash_not_mem_piece hp) heq
    · rintro rfl
      have hqs : pieces texts ≠ [] := by
        intro hnone
        rw [hnone] at hpath
        rw [joined, if_neg hnil] at hpath
        cases texts with
        | nil => exact hnil rfl
        | cons t texts => simp at hpath
      rw [joined, if_neg hqs, hpath]

/-! ## What is read, and what is printed of it -/

/-- What is read of a text with a scheme. -/
structure Printable (u : Uri) : Prop where
  scheme : isScheme u.scheme = true
  names : Names u.username u.password
  port : 0 ≤ u.port ∧ u.port < 2 ^ 31
  path : u.path ≠ []
  query : Encoded isQueryByte u.query
  parameters : u.parameters = readParameters u.query

theorem isSet_of_path {u : Uri} (hpath : u.path ≠ []) : u.isSet = true := by
  rw [isSet, Bool.or_eq_true]
  exact .inr (decide_eq_true (List.length_pos_iff.mpr hpath))

theorem getD_ite_length (t : Text) : (if t.length > 0 then some t else none).getD [] = t := by
  cases t <;> rfl

theorem joined_ne_nil (texts : List Text) : joined texts ≠ [] := by
  unfold joined
  cases texts with
  | nil => simp
  | cons t texts => simp

section

variable {L : UriParser} (h : L.Documented)
include h

theorem decode_getD_scheme {c : Components} (hc : c.WellFormed) :
    decode L (c.scheme.getD []) = c.scheme.getD [] := by
  cases hs : c.scheme with
  | none => exact decode_of_not_mem h List.not_mem_nil List.not_mem_nil
  | some t => exact decode_scheme h (hc.scheme t hs)

theorem read_eq_some {c : Components} (hc : c.WellFormed) {u : Uri} (hread : read L c = some u) :
    u.scheme = c.scheme.getD [] ∧ readUserinfo (c.userinfo.getD []) = some (u.username, u.password) ∧
      readPort u.scheme c.port = some u.port ∧ u.host = decode L (hostText c) ∧
      u.path = joined (c.segments.map (decode L)) ∧ u.query = c.query.getD [] ∧
      u.parameters = readParameters u.query := by
  unfold read at hread
  rw [decode_getD_scheme h hc] at hread
  simp only [Option.bind_eq_bind, Option.bind_eq_some_iff] at hread
  obtain ⟨⟨username, password⟩, huserinfo, port, hport, hu⟩ := hread
  obtain rfl := Option.some.inj hu
  exact ⟨rfl, huserinfo, hport, rfl, readPath_eq L _, rfl, rfl⟩

theorem printable_of_read {c : Components} (hc : c.WellFormed) {scheme : Text} (hscheme : c.scheme = some scheme)
    {u : Uri} (hread : read L c = some u) : Printable u := by
  obtain ⟨hu, huserinfo, hport, -, hpath, hquery, hparameters⟩ := read_eq_some h hc hread
  constructor
  · rw [hu, hscheme]
    exact hc.scheme scheme hscheme
  · apply names_of_read _ huserinfo
    cases ht : c.userinfo with
    | none => exact .nil
    | some t => exact hc.userinfo t ht
  · cases ht : c.port with
    | none =>
      rw [ht, readPort] at hport
      rw [← Option.some.inj hport]
      exact defaultPort_bounds _
    | some t =>
      rw [ht, readPort] at hport
      exact atoi_bounds (hc.port t ht) hport
  · rw [hpath]
    exact joined_ne_nil _
  · rw [hquery]
    cases ht : c.query with
    | none => exact .nil
    | some t => exact hc.query t ht
  · exact hparameters

theorem path_printed_iff {u : Uri} {texts : List Text} (hpath : u.path = joined texts) :
    readPath L (printed L u).segments = u.path ↔
      texts = [[]] ∨ ∀ t ∈ texts, ∀ p ∈ t.splitOn slash, p ≠ [] ∧ 0 ∉ p := by
  have hdecode : (printed L u).segments.map (decode L)
      = if u.path ≠ [slash] then (split u.path slash).map cstr else [] := by
    change (if u.path ≠ [slash] then (split u.path slash).map (encode L) else []).map (decode L) = _
    split_ifs
    · rw [List.map_map]
      exact List.map_congr_left fun t _ => decode_encode h t
    · rfl
  rw [readPath_eq, hdecode, hpath, joined_split_iff]

theorem printed_wellFormed {u : Uri} (hu : Printable u) : (printed L u).WellFormed where
  scheme := by
    rintro t ⟨rfl⟩
    exact hu.scheme
  alone := by
    intro hhost
    cases hhost
  userinfo := by
    intro t ht
    obtain ⟨-, ⟨rfl⟩⟩ := Option.mem_ite_none_right.mp ht
    exact (readUserinfo_printed hu.names).2
  host := by
    rintro host ⟨rfl⟩
    exact (encoded_encode h _).mono fun b hb => by rw [isNameByte, hb, Bool.true_or]
  port := by
    intro t ht
    obtain ⟨-, ⟨rfl⟩⟩ := Option.mem_ite_none_right.mp ht
    exact decimal_digits hu.port.1
  segments := by
    intro t ht
    simp only [printed] at ht
    split_ifs at ht
    · obtain ⟨p, -, rfl⟩ := List.mem_map.mp ht
      exact (encoded_encode h p).mono fun b hb => isPathByte_of_unreserved hb
    · cases ht
  start := rfl
  query := by
    intro t ht
    obtain ⟨-, ⟨rfl⟩⟩ := Option.mem_ite_none_right.mp ht
    exact hu.query
  fragment := by
    intro t ht
    cases ht

theorem printed_text_ne {u : Uri} (hu : Printable u) :
    (printed L u).text ≠ [] ∧ (printed L u).text ≠ text "://" ∧ 0 ∉ (printed L u).text := by
  have hwf := printed_wellFormed h hu
  refine ⟨?_, ?_, ?_⟩
  · rw [Components.text, @Components.hierText_eq (printed L u) u.scheme (encode L u.host) rfl rfl]
    simp
  · intro heq
    apply hwf.head?_text
    rw [heq]
    decide
  · exact hwf.not_mem_text rfl rfl (by decide) (by decide) (by decide) (by decide)

theorem toString_eq {u : Uri} (hu : Printable u) : toString L u = (printed L u).text := by
  obtain ⟨-, hempty, hzero⟩ := printed_text_ne h hu
  simp only [toString, isSet_of_path hu.path, if_true]
  rw [h.print_eq, (cstr_eq_self_iff _).mpr hzero, if_neg hempty]

/-- What is printed is read, but for what is behind a zero, a port 0 and empty pieces of the path. -/
theorem assign_toString {u : Uri} (hu : Printable u) :
    assign L (toString L u) = some
      ({ u with
          host := cstr u.host
          port := if u.port ≠ 0 then u.port else defaultPort u.scheme
          path := readPath L (printed L u).segments }, true) := by
  obtain ⟨hne, -, hzero⟩ := printed_text_ne h hu
  have hparse : L.parse (printed L u).text = some (printed L u) :=
    h.splits.complete (printed_wellFormed h hu) rfl rfl
  have hscheme : decode L ((printed L u).scheme.getD []) = u.scheme := decode_scheme h hu.scheme
  have huserinfo : readUserinfo ((printed L u).userinfo.getD []) = some (u.username, u.password) := by
    simp only [printed, getD_ite_length]
    exact (readUserinfo_printed hu.names).1
  have hport : readPort u.scheme (printed L u).port
      = some (if u.port ≠ 0 then u.port else defaultPort u.scheme) := by
    simp only [printed]
    split_ifs with hzero
    · exact atoi_decimal hu.port.1 hu.port.2
    · rfl
  have hhost : decode L (hostText (printed L u)) = cstr u.host := decode_encode h u.host
  have hquery : (printed L u).query.getD [] = u.query := getD_ite_length u.query
  rw [toString_eq h hu, assign, if_pos (List.length_pos_iff.mpr hne), (cstr_eq_self_iff _).mpr hzero, hparse]
  simp only [read, hscheme, huserinfo, hport, hhost, hquery, ← hu.parameters, Option.bind_eq_bind, Option.bind_some]
  rfl

end

/-! ## Round trips -/

section

variable (L : UriParser)

/-- What is accepted is printed as a text that is accepted as the same. -/
def RoundTrips (s : Text) : Prop :=
  ∃ u ok, assign L s = some (u, ok) ∧ (ok = true → ∃ u', assign L (toString L u) = some (u', true) ∧
    u'.equals u = true ∧ toString L u' = toString L u)

/-- A scheme; a user-info with a token, if there is any; a port that `int` has, and that is no 0 where
the scheme has a port; no zero in the host; and no empty pieces and no zero in the path, unless it is a
slash. -/
structure Readable (c : Components) : Prop where
  scheme : c.scheme.isSome = true
  userinfo : ∀ t ∈ c.userinfo, t = [] ∨ ∃ b ∈ t, b ≠ colon
  port : ∀ t ∈ c.port, ∃ n, atoi t = some n ∧ (n ≠ 0 ∨ defaultPort (c.scheme.getD []) = 0)
  host : 0 ∉ decode L (hostText c)
  path : c.segments.map (decode L) = [[]] ∨
    ∀ t ∈ c.segments, ∀ p ∈ (decode L t).splitOn slash, p ≠ [] ∧ 0 ∉ p

end

theorem equals_iff (u rhs : Uri) : u.equals rhs = true ↔ u.scheme = rhs.scheme ∧ u.username = rhs.username ∧
    u.password = rhs.password ∧ u.host = rhs.host ∧ u.port = rhs.port ∧ u.path = rhs.path ∧ u.query = rhs.query := by
  simp [equals, and_assoc]

section

variable {L : UriParser} (h : L.Documented)
include h

/-- A text that begins with a colon is not accepted. -/
theorem assign_colon (rest : Text) : assign L (colon :: rest) = some (cleared, false) := by
  have hcstr : cstr (colon :: rest) = colon :: cstr rest := rfl
  have hlength : (colon :: rest).length > 0 := Nat.succ_pos _
  rw [assign, if_pos hlength, hcstr]
  cases hparse : L.parse (colon :: cstr rest) with
  | none => rfl
  | some c =>
    obtain ⟨hc, htext⟩ := h.splits.sound hparse
    have hhead := hc.head?_text
    rw [htext] at hhead
    exact absurd rfl hhead

variable {c : Components} (hc : c.WellFormed)
include hc

theorem read_of_readable (hr : Readable L c) : ∃ u, read L c = some u := by
  obtain ⟨⟨username, password⟩, huserinfo⟩ := (exists_readUserinfo_iff c.userinfo).mpr hr.userinfo
  have hport : ∃ n, readPort (c.scheme.getD []) c.port = some n := by
    cases ht : c.port with
    | none => exact ⟨_, rfl⟩
    | some t =>
      obtain ⟨n, hn, -⟩ := hr.port t ht
      exact ⟨n, hn⟩
  obtain ⟨port, hport⟩ := hport
  unfold read
  rw [decode_getD_scheme h hc, huserinfo]
  simp only [Option.bind_eq_bind, Option.bind_some, hport]
  exact ⟨_, rfl⟩

/-- Without a scheme, what is printed begins with a colon, or is empty. -/
theorem not_equals_of_no_scheme (hscheme : c.scheme = none) {u u' : Uri} (hread : read L c = some u)
    (hagain : assign L (toString L u) = some (u', true)) : ¬ u'.equals u = true := by
  obtain ⟨hnone, -, -, -, hpath, -, -⟩ := read_eq_some h hc hread
  rw [hscheme] at hnone
  have hne : u.path ≠ [] := by
    rw [hpath]
    exact joined_ne_nil _
  have hcolon : ∃ rest, cstr (L.print (printed L u)) = colon :: rest := by
    rw [h.print_eq, Components.text, Components.hierText, printed, hnone]
    exact ⟨_, rfl⟩
  obtain ⟨rest, hrest⟩ := hcolon
  simp only [toString, isSet_of_path hne, if_true, hrest] at hagain
  split_ifs at hagain
  · obtain ⟨rfl, -⟩ := Prod.mk.inj (Option.some.inj hagain)
    intro heq
    obtain ⟨-, -, -, -, -, hcleared, -⟩ := (equals_iff _ _).mp heq
    exact hne hcleared.symm
  · rw [assign_colon h] at hagain
    cases hagain

/-- A text with a scheme is readable if what comes back of it is the same. -/
theorem readable_iff {scheme : Text} (hscheme : c.scheme = some scheme) {u : Uri} (hread : read L c = some u) :
    Readable L c ↔ cstr u.host = u.host ∧ (if u.port ≠ 0 then u.port else defaultPort u.scheme) = u.port ∧
      readPath L (printed L u).segments = u.path := by
  obtain ⟨hu, huserinfo, hport, hhost, hpath, -, -⟩ := read_eq_some h hc hread
  rw [path_printed_iff h hpath, List.forall_mem_map, port_printed_iff hport, hu, cstr_eq_self_iff, hhost]
  constructor
  · intro hr
    exact ⟨hr.host, hr.port, hr.path⟩
  · rintro ⟨hzero, hport, hpath⟩
    refine ⟨?_, (exists_readUserinfo_iff _).mp ⟨_, huserinfo⟩, hport, hzero, hpath⟩
    rw [hscheme]
    rfl

end

/-- A text survives being printed if and only if it is rejected, empty or readable. -/
theorem roundTrips_iff (L : UriParser) (h : L.Documented) (s : Text) :
    RoundTrips L s ↔ ∀ c, s ≠ [] → L.parse (cstr s) = some c → Readable L c := by
  constructor
  · rintro ⟨u, ok, hassign, hagain⟩ c hs hparse
    have hc := (h.splits.sound hparse).1
    simp only [assign, List.length_pos_iff.mpr hs, if_true, hparse, Option.map_eq_some_iff] at hassign
    obtain ⟨u, hread, hu⟩ := hassign
    obtain ⟨rfl, rfl⟩ := Prod.mk.inj hu
    obtain ⟨u', hassign', heq, -⟩ := hagain rfl
    cases hscheme : c.scheme with
    | none => exact absurd heq (not_equals_of_no_scheme h hc hscheme hread hassign')
    | some scheme =>
      apply (readable_iff h hc hscheme hread).mpr
      rw [assign_toString h (printable_of_read h hc hscheme hread)] at hassign'
      obtain ⟨rfl, -⟩ := Prod.mk.inj (Option.some.inj hassign')
      obtain ⟨-, -, -, hhost, hport, hpath, -⟩ := (equals_iff _ _).mp heq
      exact ⟨hhost, hport, hpath⟩
  · intro hreadable
    by_cases hs : s = []
    · exact ⟨cleared, true, by rw [hs]; rfl, fun _ => ⟨cleared, rfl, rfl, rfl⟩⟩
    · have hlength := List.length_pos_iff.mpr hs
      cases hparse : L.parse (cstr s) with
      | none =>
        refine ⟨cleared, false, ?_, fun hok => nomatch hok⟩
        rw [assign, if_pos hlength, hparse]
      | some c =>
        have hc := (h.splits.sound hparse).1
        have hr := hreadable c hs hparse
        obtain ⟨u, hread⟩ := read_of_readable h hc hr
        obtain ⟨scheme, hscheme⟩ := Option.isSome_iff_exists.mp hr.scheme
        obtain ⟨hhost, hport, hpath⟩ := (readable_iff h hc hscheme hread).mp hr
        have hagain := assign_toString h (printable_of_read h hc hscheme hread)
        rw [hhost, hport, hpath] at hagain
        refine ⟨u, true, ?_, fun _ => ⟨u, hagain, (equals_iff u u).mpr ⟨rfl, rfl, rfl, rfl, rfl, rfl, rfl⟩, rfl⟩⟩
        rw [assign, if_pos hlength, hparse]
        simp only [hread, Option.map_some]

theorem plain_roundTrips : RoundTrips .reference (text "ws://u:p@h:8080/a/b%20c?x=1") := by
  apply (roundTrips_iff .reference UriParser.reference_documented _).mpr
  intro c _ hparse
  have hc : UriParser.reference.parse (cstr (text "ws://u:p@h:8080/a/b%20c?x=1")) = some
      ⟨some (text "ws"), some (text "u:p"), some (.name (text "h")), some (text "8080"), false,
        [text "a", text "b%20c"], some (text "x=1"), none⟩ := by decide +kernel
  obtain rfl := Option.some.inj (hparse.symm.trans hc)
  constructor
  · rfl
  · rintro t ⟨rfl⟩
    exact .inr ⟨117, by decide +kernel, by decide⟩
  · rintro t ⟨rfl⟩
    exact ⟨8080, by decide +kernel, .inl (by decide)⟩
  · decide +kernel
  · decide +kernel

/-- A slash at the end is not printed, and a user-info of colons has no first token. -/
theorem trailingSlash_lost : ¬ RoundTrips .reference (text "http://h/a/") ∧
    assign .reference (text "http://:@h/") = none := by
  refine ⟨?_, by decide +kernel⟩
  rintro ⟨u, ok, hassign, hagain⟩
  have hread : assign .reference (text "http://h/a/")
      = some (⟨text "http", [], [], text "h", 80, text "/a/", [], []⟩, true) := by decide +kernel
  obtain ⟨rfl, rfl⟩ := Prod.mk.inj (Option.some.inj (hassign.symm.trans hread))
  obtain ⟨u', hassign', heq, -⟩ := hagain rfl
  have hread' : assign .reference (toString .reference ⟨text "http", [], [], text "h", 80, text "/a/", [], []⟩)
      = some (⟨text "http", [], [], text "h", 80, text "/a", [], []⟩, true) := by decide +kernel
  obtain ⟨rfl, -⟩ := Prod.mk.inj (Option.some.inj (hassign'.symm.trans hread'))
  exact absurd heq (by decide +kernel)

end Nodeoze.Net.Uri
