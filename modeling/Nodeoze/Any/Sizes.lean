import Nodeoze.Any.Stream
import Nodeoze.Bstream.Sizes

/-!
# Sizes of values of any type

`any::put` refuses a value exactly if a string or a key in it has `2 ^ 32` bytes or more, and the
constructor from a stream never makes a value with such a size anywhere.
-/

namespace Nodeoze.Any

open Reader Bstream Endian Fallible

mutual

/-- The keys of every object are distinct. -/
def Distinct : Any → Prop
  | .array xs => DistinctAll xs
  | .object ms => (ms.map Prod.fst).Nodup ∧ DistinctMembers ms
  | _ => True

def DistinctAll : List Any → Prop
  | [] => True
  | x :: xs => Distinct x ∧ DistinctAll xs

def DistinctMembers : List (Key × Any) → Prop
  | [] => True
  | (_, v) :: ms => Distinct v ∧ DistinctMembers ms

end

mutual

/-- No string, key, blob, array or object in the value has `2 ^ 32` bytes or elements. -/
def Small : Any → Prop
  | .string bs => bs.length < 2 ^ 32
  | .blob bs => bs.length < 2 ^ 32
  | .array xs => xs.length < 2 ^ 32 ∧ SmallAll xs
  | .object ms => ms.length < 2 ^ 32 ∧ SmallMembers ms
  | _ => True

def SmallAll : List Any → Prop
  | [] => True
  | x :: xs => Small x ∧ SmallAll xs

def SmallMembers : List (Key × Any) → Prop
  | [] => True
  | (k, v) :: ms => k.length < 2 ^ 32 ∧ Small v ∧ SmallMembers ms

end

mutual

/-- A string or a key in the value has `2 ^ 32` bytes or more. -/
def Overlong : Any → Prop
  | .string bs => 2 ^ 32 ≤ bs.length
  | .array xs => OverlongAny xs
  | .object ms => OverlongMember ms
  | _ => False

def OverlongAny : List Any → Prop
  | [] => False
  | x :: xs => Overlong x ∨ OverlongAny xs

def OverlongMember : List (Key × Any) → Prop
  | [] => False
  | (k, v) :: ms => 2 ^ 32 ≤ k.length ∨ Overlong v ∨ OverlongMember ms

end

theorem smallAll_iff {xs : List Any} : SmallAll xs ↔ ∀ x ∈ xs, x.Small := by
  induction xs with
  | nil => simp [SmallAll]
  | cons x xs ih => simp [SmallAll, ih]

theorem smallMembers_iff {ms : List (Key × Any)} :
    SmallMembers ms ↔ ∀ m ∈ ms, m.1.length < 2 ^ 32 ∧ m.2.Small := by
  induction ms with
  | nil => simp [SmallMembers]
  | cons m ms ih => simp only [SmallMembers, ih, List.forall_mem_cons, and_assoc]

theorem overlongAny_iff {xs : List Any} : OverlongAny xs ↔ ∃ x ∈ xs, x.Overlong := by
  induction xs with
  | nil => simp [OverlongAny]
  | cons x xs ih => simp [OverlongAny, ih]

theorem overlongMember_iff {ms : List (Key × Any)} :
    OverlongMember ms ↔ ∃ m ∈ ms, 2 ^ 32 ≤ m.1.length ∨ m.2.Overlong := by
  induction ms with
  | nil => simp [OverlongMember]
  | cons m ms ih => simp only [OverlongMember, ih, List.exists_mem_cons_iff, or_assoc]

theorem distinctAll_iff {xs : List Any} : DistinctAll xs ↔ ∀ x ∈ xs, x.Distinct := by
  induction xs with
  | nil => simp [DistinctAll]
  | cons x xs ih => simp [DistinctAll, ih]

theorem distinctMembers_iff {ms : List (Key × Any)} :
    DistinctMembers ms ↔ ∀ m ∈ ms, m.2.Distinct := by
  induction ms with
  | nil => simp [DistinctMembers]
  | cons m ms ih => simp only [DistinctMembers, ih, List.forall_mem_cons]

theorem wf_of_small {x : Any} (hx : x.Distinct) (h : x.Small) : x.WF := by
  induction x using induct with
  | array xs ih =>
    rw [Distinct, distinctAll_iff] at hx
    obtain ⟨hlen, hxs⟩ := h
    exact ⟨hlen, (wfAll_iff xs).mpr fun x hmem => ih x hmem (hx x hmem) (smallAll_iff.mp hxs x hmem)⟩
  | object ms ih =>
    obtain ⟨hnodup, hdistinct⟩ := hx
    obtain ⟨hlen, hms⟩ := h
    refine ⟨hlen, hnodup, (wfMembers_iff ms).mpr fun m hmem => ?_⟩
    obtain ⟨hkey, hvalue⟩ := smallMembers_iff.mp hms m hmem
    exact ⟨hkey, ih m hmem (distinctMembers_iff.mp hdistinct m hmem) hvalue⟩
  | string bs => exact h
  | blob bs => exact h
  | _ => trivial

/-- Equal values have the same sizes. -/
theorem small_of_equals (x : Any) : ∀ y : Any, x.equals y = true → y.Small → x.Small := by
  induction x using induct with
  | string bs =>
    rintro (_ | _ | _ | _ | cs | _ | _ | _) heq hy <;> try cases heq
    obtain rfl := eq_of_beq heq
    exact hy
  | blob bs =>
    rintro (_ | _ | _ | _ | _ | cs | _ | _) heq hy <;> try cases heq
    obtain rfl := eq_of_beq heq
    exact hy
  | array xs ih =>
    rintro (_ | _ | _ | _ | _ | _ | ys | _) heq hy <;> try cases heq
    have hall : ∀ xs ys : List Any, (∀ x ∈ xs, ∀ y : Any, x.equals y = true → y.Small → x.Small) →
        equalsAll xs ys = true → xs.length = ys.length ∧ (SmallAll ys → SmallAll xs) := by
      intro xs
      induction xs with
      | nil =>
        rintro (_ | ⟨y, ys⟩) _ heq
        · exact ⟨rfl, id⟩
        · cases heq
      | cons x xs ihs =>
        rintro (_ | ⟨y, ys⟩) hxs heq
        · cases heq
        · obtain ⟨hx, hrest⟩ := List.forall_mem_cons.mp hxs
          obtain ⟨hhead, htail⟩ := (Bool.and_eq_true _ _).mp heq
          obtain ⟨hlen, hsmall⟩ := ihs ys hrest htail
          exact ⟨congrArg Nat.succ hlen, fun h => ⟨hx y hhead h.1, hsmall h.2⟩⟩
    obtain ⟨hlen, hsmall⟩ := hall xs ys ih heq
    exact ⟨hlen ▸ hy.1, hsmall hy.2⟩
  | object ms ih =>
    rintro (_ | _ | _ | _ | _ | _ | _ | ns) heq hy <;> try cases heq
    obtain ⟨hlen, hmembers⟩ := (Bool.and_eq_true _ _).mp heq
    obtain ⟨hlt, hns⟩ := hy
    rw [smallMembers_iff] at hns
    refine ⟨eq_of_beq hlen ▸ hlt, ?_⟩
    clear heq hlen
    induction ms with
    | nil => trivial
    | cons m ms ihs =>
      obtain ⟨k, v⟩ := m
      obtain ⟨hhead, htail⟩ := (Bool.and_eq_true _ _).mp hmembers
      obtain ⟨hv, hms⟩ := List.forall_mem_cons.mp ih
      cases hlookup : ns.lookup k with
      | none =>
        rw [hlookup] at hhead
        cases hhead
      | some v' =>
        rw [hlookup] at hhead
        have hmem : (k, v') ∈ ns := by
          obtain ⟨l₁, l₂, rfl, -⟩ := List.lookup_eq_some_iff.mp hlookup
          exact List.mem_append_right _ List.mem_cons_self
        obtain ⟨hkey, hvalue⟩ := hns _ hmem
        exact ⟨hkey, hv v' hhead hvalue, ihs hms htail⟩
  | _ => exact fun _ _ _ => trivial

/-! ### Refused values -/

section

variable (o : Order)

theorem putString_ok_iff {bs : List UInt8} : (∃ ts, putString o bs = .ok ts) ↔ bs.length < 2 ^ 32 := by
  constructor
  · rintro ⟨ts, hts⟩
    by_contra hlong
    rw [putString_refused (Nat.not_lt.mp hlong)] at hts
    cases hts
  · exact putString_ok

theorem putAll_ok_iff {xs : List Any} :
    (∃ ts, putAll o xs = .ok ts) ↔ ∀ x ∈ xs, ∃ ts, put o x = .ok ts := by
  induction xs with
  | nil => simp [putAll, pure, Except.pure]
  | cons x xs ih =>
    rw [List.forall_mem_cons, ← ih]
    constructor
    · rintro ⟨ts, h⟩
      obtain ⟨us, hx, h⟩ := bind_eq_ok.mp h
      obtain ⟨vs, hxs, -⟩ := bind_eq_ok.mp h
      exact ⟨⟨us, hx⟩, vs, hxs⟩
    · rintro ⟨⟨us, hx⟩, vs, hxs⟩
      exact ⟨us ++ vs, by rw [putAll, hx, hxs]; rfl⟩

theorem putMembers_ok_iff {ms : List (Key × Any)} : (∃ ts, putMembers o ms = .ok ts) ↔
    ∀ m ∈ ms, m.1.length < 2 ^ 32 ∧ ∃ ts, put o m.2 = .ok ts := by
  induction ms with
  | nil => simp [putMembers, pure, Except.pure]
  | cons m ms ih =>
    obtain ⟨k, v⟩ := m
    rw [List.forall_mem_cons, ← ih, ← putString_ok_iff o]
    constructor
    · rintro ⟨ts, h⟩
      obtain ⟨ks, hk, h⟩ := bind_eq_ok.mp h
      obtain ⟨us, hv, h⟩ := bind_eq_ok.mp h
      obtain ⟨vs, hms, -⟩ := bind_eq_ok.mp h
      exact ⟨⟨⟨ks, hk⟩, us, hv⟩, vs, hms⟩
    · rintro ⟨⟨⟨ks, hk⟩, us, hv⟩, vs, hms⟩
      exact ⟨ks ++ us ++ vs, by rw [putMembers, hk, hv, hms]; rfl⟩

theorem put_ok_iff (x : Any) : (∃ ts, put o x = .ok ts) ↔ ¬ x.Overlong := by
  induction x using induct with
  | string bs => exact (putString_ok_iff o).trans Nat.not_le.symm
  | array xs ih =>
    have hall : (∃ ts, put o (.array xs) = .ok ts) ↔ ∃ ts, putAll o xs = .ok ts := by
      constructor
      · rintro ⟨ts, h⟩
        exact (bind_eq_ok.mp h).imp fun _ h => h.1
      · rintro ⟨ts, h⟩
        exact ⟨_, by rw [put, h]; rfl⟩
    rw [hall, putAll_ok_iff, Overlong, overlongAny_iff]
    push Not
    exact forall₂_congr ih
  | object ms ih =>
    have hall : (∃ ts, put o (.object ms) = .ok ts) ↔ ∃ ts, putMembers o ms = .ok ts := by
      constructor
      · rintro ⟨ts, h⟩
        exact (bind_eq_ok.mp h).imp fun _ h => h.1
      · rintro ⟨ts, h⟩
        exact ⟨_, by rw [put, h]; rfl⟩
    rw [hall, putMembers_ok_iff, Overlong, overlongMember_iff]
    push Not
    exact forall₂_congr fun m hm => and_congr Iff.rfl (ih m hm)
  | _ => exact iff_of_true ⟨_, rfl⟩ id

theorem put_refuses_iff (x : Any) : (∃ e, put o x = .error e) ↔ x.Overlong := by
  rw [← not_iff_not, ← put_ok_iff o x]
  cases put o x with
  | error e => simp
  | ok ts => simp

end

/-! ### What the reader can return -/

section

variable (widen : Nat → Nat) (o : Order)

/-- What the reader returns is small. -/
abbrev EnsuresSmall {α : Type} (p : Istream Unit α) (Q : α → Prop) : Prop :=
  Ensures (fun _ => True) p Q

theorem length_emplace_le (ms : List (Key × Any)) (k : Key) (v : Any) :
    (emplace ms k v).length ≤ ms.length + 1 := by
  unfold emplace
  split_ifs <;> simp

theorem mem_emplace {ms : List (Key × Any)} {k : Key} {v : Any} {m : Key × Any}
    (h : m ∈ emplace ms k v) : m = (k, v) ∨ m ∈ ms := by
  unfold emplace at h
  split_ifs at h
  · exact .inr h
  · simpa [or_comm] using h

theorem ensures_elems {again : Istream Unit Any} (h : EnsuresSmall again Small) (n : Nat) :
    EnsuresSmall (loop (readElem again) n []) fun xs => xs.length ≤ n ∧ SmallAll xs := by
  have hstep : ∀ (i : Nat) (xs : List Any), (xs.length ≤ i ∧ ∀ x ∈ xs, x.Small) →
      EnsuresSmall (readElem again xs) fun ys => ys.length ≤ i + 1 ∧ ∀ y ∈ ys, y.Small := by
    rintro i xs ⟨hlen, hxs⟩
    refine h.wrap (fun x => xs ++ [x]) fun x hx => ⟨by simpa using hlen, ?_⟩
    intro y hy
    rcases List.mem_append.mp hy with hy | hy
    · exact hxs y hy
    · obtain rfl := List.mem_singleton.mp hy
      exact hx
  refine (Ensures.loop hstep n 0 [] ⟨le_rfl, fun _ h => nomatch h⟩).imp ?_
  rintro xs ⟨hlen, hxs⟩
  exact ⟨by omega, smallAll_iff.mpr hxs⟩

theorem ensures_members {again : Istream Unit Any} (h : EnsuresSmall again Small) (n : Nat) :
    EnsuresSmall (loop (readMember o again) n []) fun ms => ms.length ≤ n ∧ SmallMembers ms := by
  have hstep : ∀ (i : Nat) (ms : List (Key × Any)),
      (ms.length ≤ i ∧ ∀ m ∈ ms, m.1.length < 2 ^ 32 ∧ m.2.Small) →
      EnsuresSmall (readMember o again ms)
        fun ns => ns.length ≤ i + 1 ∧ ∀ m ∈ ns, m.1.length < 2 ^ 32 ∧ m.2.Small := by
    rintro i ms ⟨hlen, hms⟩
    refine (ensures_getString o).bind fun k hk => h.wrap (fun v => emplace ms k v) fun v hv => ⟨?_, ?_⟩
    · exact (length_emplace_le ms k v).trans (Nat.succ_le_succ hlen)
    · intro m hm
      rcases mem_emplace hm with rfl | hm
      · exact ⟨hk, hv⟩
      · exact hms m hm
  refine (Ensures.loop hstep n 0 [] ⟨le_rfl, fun _ h => nomatch h⟩).imp ?_
  rintro ms ⟨hlen, hms⟩
  exact ⟨by omega, smallMembers_iff.mpr hms⟩

/-- Whatever the bytes are, no size of what is made of them reaches `2 ^ 32`. -/
theorem ensures_read (fuel : Nat) : EnsuresSmall (read widen o fuel) Small := by
  induction fuel with
  | zero => exact .throw _
  | succ fuel ih =>
    refine (Ensures.peek eof).bind fun code _ => ?_
    rcases kindOf code with _ | kind
    · exact .throw _
    · cases kind with
      | null => exact .pure trivial
      | boolean => exact (leaf_getBool.ensures _).wrap Any.boolean fun _ _ => trivial
      | integer => exact ((leaf_getInt o true .w64).ensures _).wrap _ fun _ _ => trivial
      | floating => exact ((leaf_getDouble o widen).ensures _).wrap _ fun _ _ => trivial
      | string =>
        refine (Ensures.ahead (Q := fun _ => True) ?_).bind fun n _ => ?_
        · exact (leaf_readStringHeader o).ensures _
        · exact (Ensures.ite (ensures_getString o) (ensures_getString o)).wrap Any.string fun _ h => h
      | blob => exact (ensures_readBlob o).wrap Any.blob fun _ h => h
      | array =>
        refine (ensures_readArrayHeader o).bind fun n hn => (ensures_elems ih n).wrap Any.array ?_
        exact fun xs h => ⟨h.1.trans_lt hn, h.2⟩
      | object =>
        refine (ensures_readMapHeader o).bind fun n hn => (ensures_members o ih n).wrap Any.object ?_
        exact fun ms h => ⟨h.1.trans_lt hn, h.2⟩

theorem ensures_ofStream : EnsuresSmall (ofStream widen o) Small :=
  fun junk st => ensures_read widen o (st.rest.length + 1) junk st

end

end Nodeoze.Any
