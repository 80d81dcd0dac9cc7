import Mathlib.Data.List.GetD
import Nodeoze.Net.AddressText

/-!
# Reading addresses back from their text

The text of every IPv4 address is read back.  The text of an IPv6 address is read back just if the address
does not hold an IPv4 address: the parser gives it up at the first dot.
-/

namespace Nodeoze.Net.Address

open LongestRun (Run longest IsRun)
open Numeral (numeral)
open Any (text)

/-! ## Numbers -/

theorem toNat_decimalDigit {d : Nat} (hd : d < 10) : (UInt8.ofNat (48 + d)).toNat = 48 + d := by
  rw [UInt8.toNat_ofNat_of_lt']
  change 48 + d < 256
  omega

/-- A digit of the octet at hand. -/
theorem scanV4_digit {s : Octets} {d : Nat} (hd : d < 10) (hsaw : s.sawDigit = true) (hcur : s.cur ≠ 0)
    (hle : s.cur * 10 + d ≤ 255) (rest : Text) :
    scanV4 s (UInt8.ofNat (48 + d) :: rest) = scanV4 { s with cur := s.cur * 10 + d } rest := by
  rw [scanV4, toNat_decimalDigit hd, if_pos (by omega)]
  simp only [Nat.add_sub_cancel_left]
  rw [if_neg (fun h => hcur h.2), if_neg (by omega), if_pos hsaw]

/-- The digits of an octet: the first one is not zero, or the only one. -/
theorem scanV4_decimalText {n : Nat} (hn : n ≤ 255) {octets : Nat} (hoctets : octets < 4) (done rest : Text) :
    scanV4 ⟨done, 0, octets, false⟩ (decimalText n ++ rest) = scanV4 ⟨done, n, octets + 1, true⟩ rest := by
  unfold decimalText
  induction n using Numeral.induct (b := 10) (by omega) generalizing rest with
  | digit n hlt =>
    rw [List.map_singleton, List.singleton_append, scanV4, toNat_decimalDigit hlt, if_pos (by omega)]
    simp only [Nat.add_sub_cancel_left, Nat.zero_mul, Nat.zero_add]
    rw [if_neg (by simp), if_neg (by omega), if_neg (by simp), if_neg (by omega)]
  | snoc n hle ih =>
    rw [List.map_append, List.append_assoc, ih (by omega), List.map_singleton, List.singleton_append]
    rw [scanV4_digit (Nat.mod_lt n (by omega)) rfl (by simp only; omega) (by simp only; omega)]
    simp only [Nat.div_add_mod' n 10]

/-- What the parser makes of a hexadecimal digit. -/
theorem idxOf_xdigit {d : Nat} (hd : d < 16) : xdigits.idxOf? (toLower (xdigits.getD d 0)) = some d := by
  revert hd
  revert d
  decide

theorem scanV6_digit {s : Words} {d : Nat} (hd : d < 16) (hle : s.val * 16 + d ≤ 0xffff) (rest : Text) :
    scanV6 s (xdigits.getD d 0 :: rest) = scanV6 { s with sawXdigit := true, val := s.val * 16 + d } rest := by
  have hval : s.val <<< 4 ||| d = s.val * 16 + d := by
    rw [← Nat.shiftLeft_add_eq_or_of_lt (i := 4) hd, Nat.shiftLeft_eq]
  rw [scanV6, idxOf_xdigit hd]
  simp only [hval]
  rw [if_neg (by omega)]

/-- The digits of a word. -/
theorem scanV6_hexText {n : Nat} (hn : n ≤ 0xffff) (out : List UInt8) (colonp : Option Nat) (rest : Text) :
    scanV6 ⟨out, colonp, false, 0⟩ (hexText n ++ rest) = scanV6 ⟨out, colonp, true, n⟩ rest := by
  unfold hexText
  induction n using Numeral.induct (b := 16) (by omega) generalizing rest with
  | digit n hlt =>
    rw [List.map_singleton, List.singleton_append, scanV6_digit hlt (by simp only; omega)]
    simp only [Nat.zero_mul, Nat.zero_add]
  | snoc n hle ih =>
    rw [List.map_append, List.append_assoc, ih (by omega), List.map_singleton, List.singleton_append]
    rw [scanV6_digit (Nat.mod_lt n (by omega)) (by simp only; omega)]
    simp only [Nat.div_add_mod' n 16]

theorem mem_hexText {n : Nat} {c : UInt8} (hc : c ∈ hexText n) : c ∈ xdigits := by
  obtain ⟨d, hd, rfl⟩ := List.mem_map.mp hc
  have hlt : d < xdigits.length := Numeral.lt_of_mem (b := 16) (by omega) hd
  rw [List.getD_eq_getElem _ _ hlt]
  exact List.getElem_mem hlt

theorem hexText_ne_nil (n : Nat) : hexText n ≠ [] := by
  unfold hexText
  rw [ne_eq, List.map_eq_nil_iff]
  exact Numeral.ne_nil 16 n

/-! ## IPv4 addresses -/

theorem mem_decimalText {n : Nat} {c : UInt8} (hc : c ∈ decimalText n) : 48 ≤ c.toNat ∧ c.toNat ≤ 57 := by
  obtain ⟨d, hd, rfl⟩ := List.mem_map.mp hc
  have hlt : d < 10 := Numeral.lt_of_mem (by omega) hd
  rw [toNat_decimalDigit hlt]
  omega

theorem mem_toV4 {bs : List UInt8} {c : UInt8} (hc : c ∈ toV4 bs) : c = dot ∨ 48 ≤ c.toNat ∧ c.toNat ≤ 57 := by
  simp only [toV4, List.mem_append, List.mem_cons] at hc
  rcases hc with hc | rfl | hc | rfl | hc | rfl | hc
  · exact .inr (mem_decimalText hc)
  · exact .inl rfl
  · exact .inr (mem_decimalText hc)
  · exact .inl rfl
  · exact .inr (mem_decimalText hc)
  · exact .inl rfl
  · exact .inr (mem_decimalText hc)

theorem cString_append {s : Text} (h : ∀ c ∈ s, c ≠ 0) (t : Text) : cString (s ++ t) = s ++ cString t :=
  List.takeWhile_append_of_pos fun c hc => bne_iff_ne.mpr (h c hc)

theorem cString_cons {c : UInt8} (h : c ≠ 0) (s : Text) : cString (c :: s) = c :: cString s :=
  List.takeWhile_cons_of_pos (bne_iff_ne.mpr h)

theorem cString_of_forall {s : Text} (h : ∀ c ∈ s, c ≠ 0) : cString s = s := by
  have happend := cString_append h []
  rw [List.append_nil] at happend
  exact happend.trans (List.append_nil s)

/-- An octet and the dot behind it. -/
theorem scanV4_octet (b : UInt8) {octets : Nat} (hoctets : octets < 3) (done rest : Text) :
    scanV4 ⟨done, 0, octets, false⟩ (decimalText b.toNat ++ dot :: rest)
      = scanV4 ⟨done ++ [b], 0, octets + 1, false⟩ rest := by
  have hb := b.toNat_lt
  rw [scanV4_decimalText (by omega) (by omega), scanV4, if_neg (by decide), if_pos ⟨rfl, rfl⟩]
  simp only
  rw [if_neg (by omega), UInt8.ofNat_toNat]

theorem ofString_toV4 (b₀ b₁ b₂ b₃ : UInt8) :
    ofString (toV4 [b₀, b₁, b₂, b₃]) = .v4 ⟨[b₀, b₁, b₂, b₃], rfl⟩ := by
  have hb := b₃.toNat_lt
  have hcolon : colon ∉ toV4 [b₀, b₁, b₂, b₃] := by
    intro hmem
    exact absurd (mem_toV4 hmem) (by decide)
  have hcstring : cString (toV4 [b₀, b₁, b₂, b₃]) = toV4 [b₀, b₁, b₂, b₃] := by
    apply cString_of_forall
    rintro c hc rfl
    exact absurd (mem_toV4 hc) (by decide)
  have hscan : scanV4 ⟨[], 0, 0, false⟩ (toV4 [b₀, b₁, b₂, b₃]) = some ⟨[b₀, b₁, b₂], b₃.toNat, 4, true⟩ := by
    change scanV4 _ (decimalText b₀.toNat ++ dot :: (decimalText b₁.toNat ++ dot ::
      (decimalText b₂.toNat ++ dot :: decimalText b₃.toNat))) = _
    rw [scanV4_octet b₀ (by omega), scanV4_octet b₁ (by omega), scanV4_octet b₂ (by omega),
      ← List.append_nil (decimalText b₃.toNat), scanV4_decimalText (by omega) (by omega)]
    rfl
  rw [ofString, if_neg hcolon, fromV4, hcstring, hscan]
  simp

/-! ## Printing an IPv6 address -/

/-- Words with colons between. -/
def groups : List Nat → Text
  | [] => []
  | w :: ws => hexText w ++ ws.flatMap fun w => colon :: hexText w

theorem groups_cons_cons (w w' : Nat) (ws : List Nat) :
    groups (w :: w' :: ws) = hexText w ++ colon :: groups (w' :: ws) := by
  simp [groups]

theorem groups_ne_nil (w : Nat) (ws : List Nat) : groups (w :: ws) ≠ [] := by
  intro h
  exact hexText_ne_nil w (List.append_eq_nil_iff.mp h).1

section

variable {b : Option Run}

/-- Words outside of the run. -/
theorem printWords_outside (pre ws : List Nat) {i : Nat}
    (hinside : ∀ j, i ≤ j → j < i + pre.length → inside b j = false) :
    printWords b none i (pre ++ ws)
      = (if i = 0 then groups pre else pre.flatMap fun w => colon :: hexText w)
        ++ printWords b none (i + pre.length) ws := by
  induction pre generalizing i with
  | nil => simp [groups]
  | cons w pre ih =>
    have hnext := @ih (i + 1) (fun j hle hlt => hinside j (by omega) (by rw [List.length_cons]; omega))
    rw [if_neg (Nat.succ_ne_zero i)] at hnext
    rw [List.cons_append, printWords, hinside i (Nat.le_refl i) (by rw [List.length_cons]; omega), hnext]
    by_cases hi : i = 0
    · simp [hi, groups, Nat.add_comm 1]
    · simp [hi, Nat.add_comm 1, Nat.add_assoc]

/-- Words inside of the run: only the first one gives a colon. -/
theorem printWords_inside (zs ws : List Nat) {i : Nat} {r : Run} (hbase : r.base < i)
    (hend : i + zs.length = r.base + r.len) :
    printWords (some r) none i (zs ++ ws) = printWords (some r) none (r.base + r.len) ws := by
  induction zs generalizing i with
  | nil =>
    rw [← hend]
    rfl
  | cons z zs ih =>
    rw [List.length_cons] at hend
    have hin : inside (some r) i = true := by
      simp only [inside, Bool.and_eq_true, decide_eq_true_eq]
      omega
    rw [List.cons_append, printWords, hin, if_pos rfl, if_neg (by simp; omega), List.nil_append, ih (by omega) (by omega)]

/-- The words before the run, two colons, and the words behind it. -/
theorem printWords_run (pre zs post : List Nat) (hzs : zs ≠ []) (hlength : (pre ++ (zs ++ post)).length = 8) :
    printWords (some ⟨pre.length, zs.length⟩) none 0 (pre ++ (zs ++ post))
        ++ (if trailing (some ⟨pre.length, zs.length⟩) then [colon] else [])
      = groups pre ++ colon :: colon :: groups post := by
  obtain ⟨z, zs, rfl⟩ := List.exists_cons_of_ne_nil hzs
  simp only [List.length_append, List.length_cons] at hlength
  rw [printWords_outside pre _ (fun j _ hlt => by simp [inside]; omega), if_pos rfl, Nat.zero_add, List.cons_append,
    printWords, if_pos (by simp [inside]), if_pos (by simp)]
  rw [printWords_inside zs post (Nat.lt_succ_self _) (by simp only [List.length_cons]; omega)]
  cases post with
  | nil =>
    rw [List.length_nil] at hlength
    have htrailing : trailing (some ⟨pre.length, (z :: zs).length⟩) = true := by
      simp only [trailing, List.length_cons, beq_iff_eq]
      omega
    rw [htrailing]
    simp [printWords, groups]
  | cons w post =>
    rw [List.length_cons] at hlength
    have htrailing : trailing (some ⟨pre.length, (z :: zs).length⟩) = false := by
      simp only [trailing, List.length_cons, beq_eq_false_iff_ne]
      omega
    have houtside : ∀ j, pre.length + (z :: zs).length ≤ j → inside (some ⟨pre.length, (z :: zs).length⟩) j = false := by
      intro j hle
      simp only [inside, Bool.and_eq_false_iff, decide_eq_false_iff_not]
      omega
    have hbehind := @printWords_outside (some ⟨pre.length, (z :: zs).length⟩) (w :: post) []
      (pre.length + (z :: zs).length) (fun j hle _ => houtside j hle)
    rw [List.append_nil, if_neg (by rw [List.length_cons]; omega)] at hbehind
    rw [htrailing, hbehind]
    simp [printWords, groups]

end

/-! ## Parsing an IPv6 address -/

theorem colon_not_xdigit : xdigits.idxOf? (toLower colon) = none := by decide

/-- A word and the colon behind it. -/
theorem scanV6_group {n : Nat} (hn : n ≤ 0xffff) {out : List UInt8} (hout : out.length + 2 ≤ 16)
    (colonp : Option Nat) {rest : Text} (hrest : rest ≠ []) :
    scanV6 ⟨out, colonp, false, 0⟩ (hexText n ++ colon :: rest)
      = scanV6 ⟨out ++ wordBytes n, colonp, false, 0⟩ rest := by
  rw [scanV6_hexText hn, scanV6, colon_not_xdigit]
  simp only [if_true, Bool.not_true, Bool.false_eq_true, if_false]
  rw [if_neg hrest, if_neg (by omega)]

theorem length_wordBytes (ws : List Nat) : (ws.flatMap wordBytes).length = 2 * ws.length := by
  induction ws with
  | nil => rfl
  | cons w ws ih =>
    rw [List.flatMap_cons, List.length_append, ih, List.length_cons]
    simp only [wordBytes, List.length_cons, List.length_nil]
    omega

/-- Words at the end of the text. -/
theorem scanV6_groups {ws : List Nat} (hws : ∀ w ∈ ws, w ≤ 0xffff) {out : List UInt8}
    (hout : out.length + 2 * ws.length ≤ 16) (colonp : Option Nat) :
    (scanV6 ⟨out, colonp, false, 0⟩ (groups ws)).bind finish = place colonp (out ++ ws.flatMap wordBytes) := by
  induction ws generalizing out with
  | nil => simp [groups, scanV6, finish]
  | cons w ws ih =>
    have hw := hws w List.mem_cons_self
    rw [List.length_cons] at hout
    cases ws with
    | nil =>
      rw [groups, List.flatMap_nil, scanV6_hexText hw, scanV6, Option.bind_some, finish, if_pos rfl]
      simp only
      rw [if_neg (by omega), List.flatMap_singleton]
    | cons w' ws =>
      have hlength : (out ++ wordBytes w).length = out.length + 2 := by simp [wordBytes]
      rw [groups_cons_cons, scanV6_group hw (by omega) _ (groups_ne_nil w' ws),
        ih (fun x hx => hws x (List.mem_cons_of_mem w hx)) (by rw [hlength]; omega)]
      rw [List.flatMap_cons (x := w), List.append_assoc]

/-- Words before two colons. -/
theorem scanV6_before {w : Nat} {ws : List Nat} (hws : ∀ x ∈ w :: ws, x ≤ 0xffff) {out : List UInt8}
    (hout : out.length + 2 * (w :: ws).length ≤ 16) (rest : Text) :
    scanV6 ⟨out, none, false, 0⟩ (groups (w :: ws) ++ colon :: colon :: rest)
      = scanV6 ⟨out ++ (w :: ws).flatMap wordBytes, some (out.length + 2 * (w :: ws).length), false, 0⟩ rest := by
  induction ws generalizing out w with
  | nil =>
    rw [List.length_singleton] at hout
    rw [groups, List.flatMap_nil, List.append_nil,
      scanV6_group (hws w List.mem_cons_self) (by omega) _ (List.cons_ne_nil _ _), scanV6, colon_not_xdigit]
    simp [wordBytes]
  | cons w' ws ih =>
    have hlength : (out ++ wordBytes w).length = out.length + 2 := by simp [wordBytes]
    rw [List.length_cons] at hout
    rw [groups_cons_cons, List.append_assoc, List.cons_append,
      scanV6_group (hws w List.mem_cons_self) (by omega) _ (by simp),
      ih (fun x hx => hws x (List.mem_cons_of_mem w hx)) (by rw [hlength]; omega), hlength,
      List.flatMap_cons (x := w), List.append_assoc, List.length_cons (a := w)]
    congr 3
    omega

/-- After `i` turns, `i` bytes are at the end and zeros in their place. -/
theorem shift_eq {out : List UInt8} {c n : Nat} (hout : out.length = c + n) (hlt : out.length < 16) (i : Nat)
    (hi : i ≤ n) :
    shift (out ++ List.replicate (16 - out.length) 0) c n i
      = out.take (c + n - i) ++ (List.replicate (16 - out.length) 0 ++ out.drop (c + n - i)) := by
  induction i with
  | zero =>
    rw [shift, Nat.sub_zero, ← hout, List.take_length, List.drop_length, List.append_nil]
  | succ i ih =>
    -- the byte at hand, and the zeros, of which there is at least one
    obtain ⟨x, hx⟩ : ∃ x, out[c + n - (i + 1)]? = some x := ⟨_, List.getElem?_eq_getElem (by omega)⟩
    obtain ⟨m, hm⟩ : ∃ m, 16 - out.length = m + 1 := ⟨15 - out.length, by omega⟩
    have htake : out.take (c + n - i) = out.take (c + n - (i + 1)) ++ [x] := by
      rw [show c + n - i = c + n - (i + 1) + 1 by omega, List.take_add_one, hx]
      rfl
    have hdrop : out.drop (c + n - (i + 1)) = x :: out.drop (c + n - i) := by
      obtain ⟨hlength, hget⟩ := List.getElem?_eq_some_iff.mp hx
      rw [List.drop_eq_getElem_cons hlength, hget, show c + n - (i + 1) + 1 = c + n - i by omega]
    have hlength : (out.take (c + n - (i + 1))).length = c + n - (i + 1) := by
      rw [List.length_take]
      omega
    rw [shift, ih (by omega), htake, hdrop, hm]
    generalize out.take (c + n - (i + 1)) = front at hlength
    generalize out.drop (c + n - i) = back
    have hsplit : front ++ [x] ++ (List.replicate (m + 1) 0 ++ back)
        = (front ++ x :: List.replicate m 0) ++ 0 :: back := by
      rw [List.replicate_succ']
      simp
    have hlast : 16 - (i + 1) = (front ++ x :: List.replicate m (0 : UInt8)).length := by
      rw [List.length_append, List.length_cons, List.length_replicate]
      omega
    have hget : ((front ++ x :: List.replicate m 0) ++ 0 :: back).getD (c + n - (i + 1)) 0 = x := by
      rw [← hlength, List.append_assoc]
      simp
    rw [hsplit, hget, hlast, List.set_append_right _ _ (Nat.le_refl _), Nat.sub_self, List.set_cons_zero,
      List.append_assoc, ← hlength, List.set_append_right _ _ (Nat.le_refl _), Nat.sub_self, List.cons_append,
      List.set_cons_zero]
    rw [List.replicate_succ]
    rfl

/-- The bytes behind two colons are moved to the end. -/
theorem place_some {out : List UInt8} {c : Nat} (hc : c ≤ out.length) (hlt : out.length < 16) :
    place (some c) out = some (out.take c ++ (List.replicate (16 - out.length) 0 ++ out.drop c)) := by
  have hshift := @shift_eq out c (out.length - c) (by omega) hlt (out.length - c) (Nat.le_refl _)
  rw [show c + (out.length - c) - (out.length - c) = c by omega] at hshift
  rw [place, if_neg (by omega), hshift]

/-! ## Words and bytes -/

theorem word_eq (b b' : UInt8) : b.toNat <<< 8 ||| b'.toNat = b.toNat * 256 + b'.toNat := by
  rw [← Nat.shiftLeft_add_eq_or_of_lt b'.toNat_lt, Nat.shiftLeft_eq]

theorem words_le (bs : List UInt8) : ∀ w ∈ words bs, w ≤ 0xffff := by
  induction bs using words.induct with
  | case1 b b' bs ih =>
    intro w hw
    rw [words, word_eq] at hw
    rcases List.mem_cons.mp hw with rfl | hw
    · have hb := b.toNat_lt
      have hb' := b'.toNat_lt
      omega
    · exact ih w hw
  | case2 bs hbs =>
    intro w hw
    rw [words.eq_2 bs hbs] at hw
    contradiction

theorem wordBytes_word (b b' : UInt8) : wordBytes (b.toNat <<< 8 ||| b'.toNat) = [b, b'] := by
  have hb' := b'.toNat_lt
  have hhigh : (b.toNat * 256 + b'.toNat) >>> 8 = b.toNat := by
    rw [Nat.shiftRight_eq_div_pow]
    omega
  have hlow : UInt8.ofNat (b.toNat * 256 + b'.toNat) = b' := by
    apply UInt8.toNat_inj.mp
    rw [UInt8.toNat_ofNat']
    omega
  rw [word_eq, wordBytes, hhigh, hlow, UInt8.ofNat_toNat]

theorem words_spec {n : Nat} {bs : List UInt8} (h : bs.length = 2 * n) :
    (words bs).length = n ∧ (words bs).flatMap wordBytes = bs := by
  induction n generalizing bs with
  | zero =>
    obtain rfl := List.eq_nil_of_length_eq_zero h
    exact ⟨rfl, rfl⟩
  | succ n ih =>
    match bs with
    | [] => simp at h
    | [_] => simp at h; omega
    | b :: b' :: bs =>
      obtain ⟨hlength, hbytes⟩ := @ih bs (by simp only [List.length_cons] at h; omega)
      rw [words, List.length_cons, hlength, List.flatMap_cons, wordBytes_word, hbytes]
      exact ⟨rfl, rfl⟩

theorem flatMap_zeros (n : Nat) : (List.replicate n 0).flatMap wordBytes = List.replicate (2 * n) 0 := by
  induction n with
  | zero => rfl
  | succ n ih =>
    rw [List.replicate_succ, List.flatMap_cons, ih]
    rfl

/-! ## The run of zeros -/

section

variable {ws : List Nat} {r : Run}

theorem isRun_zeros : IsRun (fun w => w == 0) ws r ↔ ∀ i, r.base ≤ i → i < r.base + r.len → ws[i]? = some 0 := by
  refine forall_congr' fun i => forall₂_congr fun _ _ => ?_
  constructor
  · rintro ⟨x, hx, hzero⟩
    rw [hx, beq_iff_eq.mp hzero]
  · intro hx
    exact ⟨0, hx, rfl⟩

theorem best_spec (h : best ws = some r) : longest (fun w => w == 0) ws = some r ∧ 2 ≤ r.len := by
  rw [best, Option.filter_eq_some_iff, decide_eq_true_eq] at h
  exact h

/-- The words before the run, the run, and the words behind it. -/
theorem split_of_best (h : best ws = some r) :
    ws = ws.take r.base ++ (List.replicate r.len 0 ++ ws.drop (r.base + r.len)) ∧
      (ws.take r.base).length = r.base ∧ 2 ≤ r.len := by
  obtain ⟨hlongest, htwo⟩ := best_spec h
  have hrun := ((LongestRun.longest_spec ws).1 r hlongest).1
  have hle := hrun.le_length (by omega)
  have hzeros : (ws.drop r.base).take r.len = List.replicate r.len 0 := by
    rw [List.eq_replicate_iff]
    refine ⟨?_, fun w hw => ?_⟩
    · rw [List.length_take, List.length_drop]
      omega
    · obtain ⟨i, hi, rfl⟩ := List.getElem_of_mem hw
      rw [List.length_take, List.length_drop] at hi
      have hzero := isRun_zeros.mp hrun (r.base + i) (by omega) (by omega)
      rw [List.getElem_take, List.getElem_drop]
      exact Option.some.inj ((List.getElem?_eq_getElem _).symm.trans hzero)
  refine ⟨?_, ?_, htwo⟩
  · rw [← hzeros, ← List.drop_drop, List.take_append_drop, List.take_append_drop]
  · rw [List.length_take]
    omega

/-- The words of `::a.b.c.d` or `::ffff:a.b.c.d`. -/
def Encloses (ws : List Nat) : Prop :=
  (∀ i < 5, ws[i]? = some 0) ∧ (ws[5]? = some 0 ∧ ws[6]? ≠ some 0 ∨ ws[5]? = some 0xffff)

instance (ws : List Nat) : Decidable (Encloses ws) := inferInstanceAs (Decidable (_ ∧ _))

/-- A run of zeros that is long and does not hold a certain place ends before it. -/
theorem best_of_front (hlength : ws.length = 8) {n : Nat} (hfive : 5 ≤ n) (hn : n < 8)
    (hzeros : ∀ i < n, ws[i]? = some 0) (hend : ws[n]? ≠ some 0) : best ws = some ⟨0, n⟩ := by
  obtain ⟨hsome, hmax⟩ := @LongestRun.longest_spec _ (fun w => w == 0) ws
  have hprefix : IsRun (fun w => w == 0) ws ⟨0, n⟩ := by
    rw [isRun_zeros]
    intro i _ hi
    exact hzeros i (by simpa using hi)
  have hlong := hmax _ hprefix
  cases hlongest : longest (fun w => w == 0) ws with
  | none =>
    rw [hlongest, LongestRun.length, Option.map_none, Option.getD_none] at hlong
    simp only at hlong
    omega
  | some r =>
    rw [hlongest, LongestRun.length, Option.map_some, Option.getD_some] at hlong
    obtain ⟨hrun, hpos⟩ := hsome r hlongest
    have hle := hrun.le_length hpos
    have hbefore : ¬(r.base ≤ n ∧ n < r.base + r.len) := fun h => hend (isRun_zeros.mp hrun n h.1 h.2)
    simp only at hlong
    have hr : r = ⟨0, n⟩ := by
      obtain ⟨base, len⟩ := r
      simp only [Run.mk.injEq] at *
      omega
    rw [best, hlongest, hr, Option.filter_some, if_pos (by simp; omega)]

theorem best_of_encloses (hlength : ws.length = 8) (h : Encloses ws) :
    best ws = some ⟨0, 6⟩ ∨ best ws = some ⟨0, 5⟩ ∧ ws[5]? = some 0xffff := by
  obtain ⟨hzeros, ⟨hfive, hsix⟩ | hfive⟩ := h
  · left
    apply best_of_front hlength (by omega) (by omega) _ hsix
    intro i hi
    by_cases hlast : i = 5
    · rw [hlast, hfive]
    · exact hzeros i (by omega)
  · right
    refine ⟨best_of_front hlength (by omega) (by omega) hzeros ?_, hfive⟩
    rw [hfive]
    decide

theorem encapsulated_iff (hlength : ws.length = 8) : encapsulated (best ws) ws = true ↔ Encloses ws := by
  constructor
  · intro h
    cases hbest : best ws with
    | none => simp [hbest, encapsulated] at h
    | some r =>
      obtain ⟨base, len⟩ := r
      simp only [hbest, encapsulated, Bool.and_eq_true, Bool.or_eq_true, beq_iff_eq] at h
      obtain ⟨rfl, hlen⟩ := h
      obtain ⟨hlongest, -⟩ := best_spec hbest
      obtain ⟨hsome, hmax⟩ := @LongestRun.longest_spec _ (fun w => w == 0) ws
      have hzeros := isRun_zeros.mp (hsome _ hlongest).1
      simp only [Nat.zero_add] at hzeros
      refine ⟨fun i hi => hzeros i (Nat.zero_le i) (by omega), ?_⟩
      rcases hlen with rfl | ⟨rfl, hffff⟩
      · left
        refine ⟨hzeros 5 (by omega) (by omega), fun hsix => ?_⟩
        -- with the seventh word the run would be longer
        have hseven : IsRun (fun w => w == 0) ws ⟨0, 7⟩ := by
          rw [isRun_zeros]
          intro i _ hi
          by_cases hlast : i = 6
          · rw [hlast, hsix]
          · exact hzeros i (Nat.zero_le i) (by simp only at hi; omega)
        have hle := hmax _ hseven
        rw [hlongest] at hle
        simp [LongestRun.length] at hle
      · right
        rw [List.getD_eq_getElem _ _ (by omega)] at hffff
        rw [List.getElem?_eq_getElem (by omega), hffff]
  · intro h
    rcases best_of_encloses hlength h with hbest | ⟨hbest, hffff⟩
    · rw [hbest]
      rfl
    · rw [hbest, encapsulated, List.getD_eq_getElem?_getD, hffff]
      rfl

end

/-! ## IPv6 addresses -/

theorem mem_groups {ws : List Nat} {c : UInt8} (hc : c ∈ groups ws) : c = colon ∨ c ∈ xdigits := by
  cases ws with
  | nil => simp [groups] at hc
  | cons w ws =>
    rw [groups, List.mem_append, List.mem_flatMap] at hc
    rcases hc with hc | ⟨w', -, hc⟩
    · exact .inr (mem_hexText hc)
    · exact (List.mem_cons.mp hc).imp_right mem_hexText

/-- The text of an address that holds no IPv4 address. -/
theorem toV6_of_not_encapsulated {bs : List UInt8} (h : encapsulated (best (words bs)) (words bs) = false) :
    toV6 bs = printWords (best (words bs)) none 0 (words bs)
      ++ if trailing (best (words bs)) then [colon] else [] := by
  simp only [toV6, h, Bool.false_eq_true, if_false]

/-- The parser reads a word back from its first digit on, so that nothing is taken off at the start. -/
theorem leading_groups (w : Nat) (ws : List Nat) (rest : Text) :
    leading (groups (w :: ws) ++ rest) = some (groups (w :: ws) ++ rest) := by
  obtain ⟨c, t, hc⟩ := List.exists_cons_of_ne_nil (hexText_ne_nil w)
  have hdigit : c ∈ xdigits := mem_hexText (by rw [hc]; exact List.mem_cons_self)
  have hne : c ≠ colon := by
    rintro rfl
    exact absurd hdigit (by decide)
  rw [groups, hc, List.cons_append, List.cons_append, leading, if_neg hne]

/-- Eight words. -/
theorem scan_all {ws : List Nat} (hws : ∀ w ∈ ws, w ≤ 0xffff) (hlength : ws.length = 8) :
    ((leading (groups ws)).bind (scanV6 ⟨[], none, false, 0⟩)).bind finish = some (ws.flatMap wordBytes) := by
  obtain ⟨w, ws, rfl⟩ := List.exists_cons_of_length_eq_add_one hlength
  have hleading := leading_groups w ws []
  rw [List.append_nil] at hleading
  rw [hleading, Option.bind_some, scanV6_groups hws (by rw [hlength]; decide), List.nil_append, place,
    if_pos (by rw [length_wordBytes, hlength])]

/-- Words before and behind two colons. -/
theorem scan_run {pre post : List Nat} (hpre : ∀ w ∈ pre, w ≤ 0xffff) (hpost : ∀ w ∈ post, w ≤ 0xffff) {n : Nat}
    (hn : 0 < n) (hlength : pre.length + (n + post.length) = 8) :
    ((leading (groups pre ++ colon :: colon :: groups post)).bind (scanV6 ⟨[], none, false, 0⟩)).bind finish
      = some ((pre ++ (List.replicate n 0 ++ post)).flatMap wordBytes) := by
  have hplace : place (some (2 * pre.length)) (pre.flatMap wordBytes ++ post.flatMap wordBytes)
      = some ((pre ++ (List.replicate n 0 ++ post)).flatMap wordBytes) := by
    have hout : (pre.flatMap wordBytes ++ post.flatMap wordBytes).length = 2 * pre.length + 2 * post.length := by
      rw [List.length_append, length_wordBytes, length_wordBytes]
    rw [place_some (by omega) (by omega), hout, show 16 - (2 * pre.length + 2 * post.length) = 2 * n by omega,
      List.take_left' (length_wordBytes pre), List.drop_left' (length_wordBytes pre), List.flatMap_append,
      List.flatMap_append, flatMap_zeros]
  cases pre with
  | nil =>
    rw [groups, List.nil_append, leading, if_pos rfl, List.head?_cons, if_pos rfl, Option.bind_some, scanV6,
      colon_not_xdigit]
    simp only [if_true, Bool.not_false, Option.isSome_none, Bool.false_eq_true, if_false, List.length_nil]
    rw [scanV6_groups hpost (by rw [List.length_nil]; omega)]
    exact hplace
  | cons w pre =>
    rw [leading_groups, Option.bind_some, scanV6_before hpre (by rw [List.length_nil]; omega), List.nil_append,
      List.length_nil, Nat.zero_add, scanV6_groups hpost (by rw [length_wordBytes]; omega)]
    exact hplace

theorem fromV6_of_scan {s bs : List UInt8} (hzero : ∀ c ∈ s, c ≠ 0) (hlength : bs.length = 16)
    (h : ((leading s).bind (scanV6 ⟨[], none, false, 0⟩)).bind finish = some bs) :
    fromV6 s = .v6 ⟨bs, hlength⟩ := by
  rw [fromV6, cString_of_forall hzero, h]
  exact dif_pos hlength

theorem ofString_toV6 {bs : List UInt8} (hlength : bs.length = 16) (h : ¬Encloses (words bs)) :
    ofString (toV6 bs) = .v6 ⟨bs, hlength⟩ := by
  obtain ⟨hwords, hbytes⟩ := @words_spec 8 bs hlength
  have hle := words_le bs
  have hnot : encapsulated (best (words bs)) (words bs) = false := by
    rw [← Bool.not_eq_true, encapsulated_iff hwords]
    exact h
  rw [toV6_of_not_encapsulated hnot]
  generalize words bs = ws at *
  have hxdigits : ∀ c : UInt8, c = colon ∨ c ∈ xdigits → c ≠ 0 := by
    rintro c hc rfl
    exact absurd hc (by decide)
  cases hbest : best ws with
  | none =>
    have hprint := @printWords_outside none ws [] 0 (fun _ _ _ => rfl)
    rw [List.append_nil, if_pos rfl, printWords, List.append_nil] at hprint
    rw [hprint, trailing, if_neg (by simp), List.append_nil]
    have hcolon : colon ∈ groups ws := by
      match ws, hwords with
      | w :: w' :: ws, _ =>
        rw [groups_cons_cons]
        exact List.mem_append_right _ List.mem_cons_self
    rw [ofString, if_pos hcolon]
    exact fromV6_of_scan (fun c hc => hxdigits c (mem_groups hc)) hlength ((scan_all hle hwords).trans (by rw [hbytes]))
  | some r =>
    obtain ⟨base, len⟩ := r
    obtain ⟨hsplit, hbase, htwo⟩ := split_of_best hbest
    simp only at hsplit hbase htwo
    generalize ws.take base = pre at hsplit hbase
    generalize ws.drop (base + len) = post at hsplit
    subst hsplit hbase
    rw [List.length_append, List.length_append, List.length_replicate] at hwords
    have hprint := printWords_run pre (List.replicate len 0) post (by simp; omega)
      (by rw [List.length_append, List.length_append, List.length_replicate, hwords])
    rw [List.length_replicate] at hprint
    rw [hprint]
    have hpre : ∀ w ∈ pre, w ≤ 0xffff := fun w hw => hle w (List.mem_append_left _ hw)
    have hpost : ∀ w ∈ post, w ≤ 0xffff :=
      fun w hw => hle w (List.mem_append_right _ (List.mem_append_right _ hw))
    have hcolon : colon ∈ groups pre ++ colon :: colon :: groups post :=
      List.mem_append_right _ List.mem_cons_self
    rw [ofString, if_pos hcolon]
    refine fromV6_of_scan (fun c hc => hxdigits c ?_) hlength
      ((scan_run hpre hpost (by omega) hwords).trans (by rw [hbytes]))
    simp only [List.mem_append, List.mem_cons] at hc
    rcases hc with hc | rfl | rfl | hc
    · exact mem_groups hc
    · exact .inl rfl
    · exact .inl rfl
    · exact mem_groups hc

/-! ## Addresses that hold an IPv4 address -/

/-- A dot after at most one character ends the parsing. -/
theorem scanV6_dot (out : List UInt8) (c : Nat) (x : UInt8) (rest : Text) :
    scanV6 ⟨out, some c, false, 0⟩ (x :: dot :: rest) = none := by
  have hdot : xdigits.idxOf? (toLower dot) = none := by decide
  rw [scanV6]
  cases xdigits.idxOf? (toLower x) with
  | none => simp
  | some d =>
    simp only
    split_ifs
    · rfl
    · rw [scanV6, hdot]
      exact if_neg (by decide)

/-- Two colons, then some words, each with a colon behind it, then a character and a dot. -/
theorem fromV6_dotted {x : UInt8} (hx : x ≠ 0) {ws : Text}
    (hws : ∀ rest, rest ≠ [] → ∃ out, scanV6 ⟨[], some 0, false, 0⟩ (ws ++ rest) = scanV6 ⟨out, some 0, false, 0⟩ rest)
    (hzero : ∀ c ∈ ws, c ≠ 0) (rest : Text) :
    fromV6 (colon :: colon :: (ws ++ x :: dot :: rest)) = .unknown := by
  have hcstring : cString (colon :: colon :: (ws ++ x :: dot :: rest))
      = colon :: colon :: (ws ++ x :: dot :: cString rest) := by
    rw [cString_cons (by decide), cString_cons (by decide), cString_append hzero, cString_cons hx,
      cString_cons (by decide)]
  obtain ⟨out, hout⟩ := hws (x :: dot :: cString rest) (List.cons_ne_nil _ _)
  have hscan : (leading (colon :: colon :: (ws ++ x :: dot :: cString rest))).bind (scanV6 ⟨[], none, false, 0⟩)
      = none := by
    rw [leading, if_pos rfl, List.head?_cons, if_pos rfl, Option.bind_some, scanV6, colon_not_xdigit]
    simp only [if_true, Bool.not_false, Option.isSome_none, Bool.false_eq_true, if_false, List.length_nil]
    rw [hout, scanV6_dot]
  rw [fromV6, hcstring, hscan, Option.bind_none]

/-- The text of an address that holds an IPv4 address: up to that it is a text with two colons. -/
theorem toV6_of_encloses {bs : List UInt8} (hlength : (words bs).length = 8) (h : Encloses (words bs)) :
    toV6 bs = colon :: colon :: encapsulatedText bs ∨
      toV6 bs = colon :: colon :: ((hexText 0xffff ++ [colon]) ++ encapsulatedText bs) := by
  have henclosed := (encapsulated_iff hlength).mpr h
  have hcases := best_of_encloses hlength h
  simp only [toV6, henclosed, if_true]
  generalize encapsulatedText bs = t
  generalize words bs = ws at *
  match ws, hlength with
  | [w₀, w₁, w₂, w₃, w₄, w₅, w₆, w₇], _ =>
    rcases hcases with hbest | ⟨hbest, hffff⟩
    · left
      rw [hbest]
      simp [printWords, inside, trailing]
    · right
      obtain rfl : w₅ = 0xffff := Option.some.inj hffff
      rw [hbest]
      simp [printWords, inside, trailing]

theorem ofString_of_encloses {bs : List UInt8} (hlength : bs.length = 16) (h : Encloses (words bs)) :
    ofString (toV6 bs) ≠ .v6 ⟨bs, hlength⟩ := by
  obtain ⟨hwords, -⟩ := @words_spec 8 bs hlength
  have hstring (t : Text) : ofString (colon :: t) = fromV6 (colon :: t) := if_pos List.mem_cons_self
  have hffff : ∀ c ∈ hexText 0xffff ++ [colon], c ≠ 0 := by decide +kernel
  by_cases hlast : bs.getD 15 0 = 0
  · -- the text ends before the character, for whoever reads it up to a zero
    rcases toV6_of_encloses hwords h with htext | htext <;> rw [htext, hstring]
    · have hcstring : cString (colon :: colon :: encapsulatedText bs) = [colon, colon] := by
        rw [encapsulatedText, hlast]
        rfl
      intro heq
      rw [fromV6, hcstring] at heq
      have hzeros : Address.v6 ⟨List.replicate 16 0, rfl⟩ = .v6 ⟨bs, hlength⟩ := heq
      simp only [v6.injEq, Subtype.mk.injEq] at hzeros
      subst hzeros
      exact absurd h (by decide)
    · have hcstring : cString (colon :: colon :: ((hexText 0xffff ++ [colon]) ++ encapsulatedText bs))
          = colon :: colon :: (hexText 0xffff ++ [colon]) := by
        rw [encapsulatedText, hlast]
        rfl
      have hnone : fromV6 (colon :: colon :: ((hexText 0xffff ++ [colon]) ++ encapsulatedText bs)) = .unknown := by
        rw [fromV6, hcstring]
        rfl
      rw [hnone]
      nofun
  · rcases toV6_of_encloses hwords h with htext | htext <;> rw [htext, hstring, encapsulatedText]
    · have hnone := @fromV6_dotted _ hlast [] (fun rest _ => ⟨[], rfl⟩) nofun
        [bs.getD 14 0, bs.getD 13 0, dot, bs.getD 12 0]
      rw [List.nil_append] at hnone
      rw [hnone]
      nofun
    · rw [fromV6_dotted hlast (fun rest hrest => ⟨wordBytes 0xffff, ?_⟩) hffff]
      · nofun
      · rw [List.append_assoc, List.singleton_append, scanV6_group (by omega) (by decide) _ hrest, List.nil_append]

/-! ## All addresses -/

/-- An IPv6 address that holds an IPv4 address. -/
def HoldsV4 : Address → Prop
  | .v6 bytes => Encloses (words bytes.1)
  | _ => False

/-- The text of an address is read back just if the address does not hold an IPv4 address. -/
theorem ofString_toString_iff (a : Address) : ofString a.toString = a ↔ ¬a.HoldsV4 := by
  match a with
  | .unknown => exact iff_of_true rfl not_false
  | .v4 ⟨[b₀, b₁, b₂, b₃], _⟩ => exact iff_of_true (ofString_toV4 b₀ b₁ b₂ b₃) not_false
  | .v6 ⟨bs, hlength⟩ =>
    constructor
    · intro heq h
      exact ofString_of_encloses hlength h heq
    · exact ofString_toV6 hlength

/-- `::ffff:10.0.0.1` -/
def mapped : Address := .v6 ⟨[0, 0, 0, 0, 0, 0, 0, 0, 0, 0, 255, 255, 10, 0, 0, 1], rfl⟩

/-- The bytes of the IPv4 address are printed as characters, and the text is not read back. -/
theorem mapped_unreadable :
    mapped.toString = text "::ffff:" ++ [1, dot, 0, 0, dot, 10] ∧ ofString mapped.toString = .unknown ∧
      ofString mapped.toString ≠ mapped := by
  decide

end Nodeoze.Net.Address
