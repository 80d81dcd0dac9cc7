import Nodeoze.Bstream.Ext

/-!
# Headers

The headers of strings, arrays, maps, blobs and extension objects, as MessagePack lists them: the
first byte selects a form, and the form says where the length is.  `read_string_header`,
`read_array_header`, `read_map_header`, `read_blob_header` and `read_ext_header` are compared with
the list, over all first bytes and whatever follows.
-/

namespace Nodeoze.Bstream

open Reader Endian

variable {σ : Type}

/-! ### The format -/

/-- Where a header has its length: in the bits of the first byte, nowhere, or behind it. -/
inductive Size
  | inCode (mask : UInt8)
  | fixed (n : Nat)
  | counted (w : Nat)
  deriving DecidableEq, Repr

/-- A form of header: its first bytes, its length and whether a type byte ends it. -/
structure HeaderForm where
  lo : UInt8
  hi : UInt8
  size : Size
  typed : Bool
  deriving DecidableEq, Repr

namespace HeaderForm

def Selects (form : HeaderForm) (c : UInt8) : Prop := form.lo ≤ c ∧ c ≤ form.hi

instance (form : HeaderForm) (c : UInt8) : Decidable (form.Selects c) := by
  unfold Selects
  exact inferInstance

/-- A form with one first byte. -/
def one (c : UInt8) (size : Size) (typed : Bool) : HeaderForm := ⟨c, c, size, typed⟩

/-- How many bytes the length takes behind the first byte. -/
def width (form : HeaderForm) : Nat :=
  match form.size with
  | .counted w => w
  | _ => 0

/-- How many bytes there are behind the first one. -/
def tail (form : HeaderForm) : Nat := form.width + if form.typed then 1 else 0

/-- The length that a header says. -/
def length (o : Order) (form : HeaderForm) (c : UInt8) (ws : List UInt8) : Nat :=
  match form.size with
  | .inCode mask => (c &&& mask).toNat
  | .fixed n => n
  | .counted w => o.value (ws.take w)

def extType (form : HeaderForm) (ws : List UInt8) : Option UInt8 :=
  if form.typed then ws[form.width]? else none

end HeaderForm

inductive Family
  | string
  | array
  | map
  | blob
  | ext
  deriving DecidableEq, Repr

namespace Family

def forms : Family → List HeaderForm
  | .string =>
    [⟨Typecode.fixstrMin, Typecode.fixstrMax, .inCode 0x1f, false⟩,
      .one Typecode.str8 (.counted 1) false, .one Typecode.str16 (.counted 2) false,
      .one Typecode.str32 (.counted 4) false]
  | .array =>
    [⟨Typecode.fixarrayMin, Typecode.fixarrayMax, .inCode 0x0f, false⟩,
      .one Typecode.array16 (.counted 2) false, .one Typecode.array32 (.counted 4) false]
  | .map =>
    [⟨Typecode.fixmapMin, Typecode.fixmapMax, .inCode 0x0f, false⟩,
      .one Typecode.map16 (.counted 2) false, .one Typecode.map32 (.counted 4) false]
  | .blob =>
    [.one Typecode.bin8 (.counted 1) false, .one Typecode.bin16 (.counted 2) false,
      .one Typecode.bin32 (.counted 4) false]
  | .ext =>
    [.one Typecode.fixext1 (.fixed 1) true, .one Typecode.fixext2 (.fixed 2) true,
      .one Typecode.fixext4 (.fixed 4) true, .one Typecode.fixext8 (.fixed 8) true,
      .one Typecode.fixext16 (.fixed 16) true, .one Typecode.ext8 (.counted 1) true,
      .one Typecode.ext16 (.counted 2) true, .one Typecode.ext32 (.counted 4) true]

/-- The bytes are a complete header of the family, with this type and length. -/
def Header (o : Order) (f : Family) (header : List UInt8) (x : Option UInt8 × Nat) : Prop :=
  ∃ form ∈ f.forms, ∃ c ws, header = c :: ws ∧ form.Selects c ∧ ws.length = form.tail ∧
    x = (form.extType ws, form.length o c ws)

/-- No first byte belongs to two forms. -/
theorem forms_apart (f g : Family) : ∀ a ∈ f.forms, ∀ b ∈ g.forms,
    (f = g ∧ a = b) ∨ a.hi < b.lo ∨ b.hi < a.lo := by
  cases f <;> cases g <;> decide

theorem form_unique {f g : Family} {a b : HeaderForm} {c : UInt8} (ha : a ∈ f.forms) (hb : b ∈ g.forms)
    (hac : a.Selects c) (hbc : b.Selects c) : f = g ∧ a = b := by
  rcases forms_apart f g a ha b hb with h | h | h
  · exact h
  · have hc := UInt8.le_trans hbc.1 hac.2
    rw [UInt8.le_iff_toNat_le] at hc
    rw [UInt8.lt_iff_toNat_lt] at h
    omega
  · have hc := UInt8.le_trans hac.1 hbc.2
    rw [UInt8.le_iff_toNat_le] at hc
    rw [UInt8.lt_iff_toNat_lt] at h
    omega

/-- The reader of the code; only that of extension objects has a type to return. -/
def read (o : Order) : Family → Istream σ (Option UInt8 × Nat)
  | .string => do
    let n ← readStringHeader o
    pure (none, n)
  | .array => do
    let n ← readArrayHeader o
    pure (none, n)
  | .map => do
    let n ← readMapHeader o
    pure (none, n)
  | .blob => do
    let n ← readBlobHeader o
    pure (none, n)
  | .ext => do
    let x ← readExtHeader o
    pure (some x.1, x.2)

end Family

theorem leaf_family (o : Order) (f : Family) :
    IsLeaf fun σ => (f.read o : Istream σ (Option UInt8 × Nat)) := by
  cases f with
  | string => exact (leaf_readStringHeader o).bind fun n => .pure (none, n)
  | array => exact (leaf_readArrayHeader o).bind fun n => .pure (none, n)
  | map => exact (leaf_readMapHeader o).bind fun n => .pure (none, n)
  | blob => exact (leaf_readBlobHeader o).bind fun n => .pure (none, n)
  | ext => exact (leaf_readExtHeader o).bind fun x => .pure (some x.1, x.2)

/-! ### The readers as tables -/

def HeaderForm.readLength (o : Order) (form : HeaderForm) (c : UInt8) : Istream σ Nat :=
  match form.size with
  | .inCode mask => pure (c &&& mask).toNat
  | .fixed n => pure n
  | .counted w => getNum o w

/-- Read what a form has behind the first byte. -/
def HeaderForm.read (o : Order) (form : HeaderForm) (c : UInt8) : Istream σ (Option UInt8 × Nat) := do
  let n ← form.readLength o c
  if form.typed then do
    let t ← get eof
    pure (some t, n)
  else pure (none, n)

/-- Read the header that the first byte selects. -/
def scan (o : Order) : List HeaderForm → UInt8 → Istream σ (Option UInt8 × Nat)
  | [], _ => throw (.system .typeError)
  | form :: forms, c => if form.Selects c then form.read o c else scan o forms c

/-- The forms that the readers of the code take. -/
def Family.taken : Family → List HeaderForm
  | .map =>
    [⟨Typecode.fixmapMin, Typecode.fixarrayMax, .inCode 0x0f, false⟩,
      .one Typecode.map16 (.counted 2) false, .one Typecode.map32 (.counted 4) false]
  | f => f.forms

theorem selects_mk (lo hi : UInt8) (size : Size) (typed : Bool) (c : UInt8) :
    (HeaderForm.mk lo hi size typed).Selects c ↔ lo ≤ c ∧ c ≤ hi := Iff.rfl

theorem selects_one (c : UInt8) (size : Size) (typed : Bool) (d : UInt8) :
    (HeaderForm.one c size typed).Selects d ↔ d = c := by
  constructor
  · exact fun h => UInt8.le_antisymm h.2 h.1
  · rintro rfl
    exact ⟨UInt8.le_refl d, UInt8.le_refl d⟩

/-- A reader that makes a choice and goes on makes the choice between readers that go on. -/
theorem ite_bind_congr {α β : Type} {p : Prop} [Decidable p] {x y : Istream σ α} {f : α → Istream σ β}
    {u v : Istream σ β} (hx : x >>= f = u) (hy : y >>= f = v) :
    (if p then x else y) >>= f = if p then u else v := by
  split_ifs
  · exact hx
  · exact hy

theorem Family.read_eq (o : Order) (f : Family) :
    (f.read o : Istream σ (Option UInt8 × Nat)) = (do let c ← get eof; scan o f.taken c) := by
  cases f with
  | string =>
    rw [read, readStringHeader, bind_assoc]
    refine bind_congr fun c => ?_
    simp only [taken, forms, scan, selects_mk, selects_one]
    repeat' apply ite_bind_congr
    all_goals rfl
  | array =>
    rw [read, readArrayHeader, bind_assoc]
    refine bind_congr fun c => ?_
    simp only [taken, forms, scan, selects_mk, selects_one]
    repeat' apply ite_bind_congr
    all_goals rfl
  | map =>
    rw [read, readMapHeader, bind_assoc]
    refine bind_congr fun c => ?_
    simp only [taken, scan, selects_mk, selects_one]
    repeat' apply ite_bind_congr
    all_goals rfl
  | blob =>
    rw [read, readBlobHeader, bind_assoc]
    refine bind_congr fun c => ?_
    simp only [taken, forms, scan, selects_one]
    repeat' apply ite_bind_congr
    all_goals rfl
  | ext =>
    rw [read, readExtHeader, bind_assoc]
    refine bind_congr fun c => ?_
    simp only [taken, forms, scan, selects_one]
    repeat' apply ite_bind_congr
    all_goals simp [HeaderForm.read, HeaderForm.readLength, HeaderForm.one, getNum]

/-- The short arrays are what the code takes beyond the list. -/
theorem scan_taken (o : Order) (f : Family) (c : UInt8) :
    (scan o f.taken c : Istream σ (Option UInt8 × Nat)) =
      if f = .map ∧ Typecode.fixarrayMin ≤ c ∧ c ≤ Typecode.fixarrayMax then
        pure (none, (c &&& 0x0f).toNat)
      else scan o f.forms c := by
  cases f with
  | map =>
    simp only [Family.taken, Family.forms, scan, selects_mk, selects_one, true_and,
      UInt8.le_iff_toNat_le, Typecode.fixmapMin, Typecode.fixmapMax, Typecode.fixarrayMin,
      Typecode.fixarrayMax, UInt8.reduceToNat]
    by_cases harray : 144 ≤ c.toNat ∧ c.toNat ≤ 159
    · rw [if_pos harray, if_pos (by omega)]
      rfl
    · rw [if_neg harray]
      by_cases hmap : 128 ≤ c.toNat ∧ c.toNat ≤ 143
      · rw [if_pos hmap, if_pos (by omega)]
        rfl
      · rw [if_neg hmap, if_neg (by omega)]
  | string | array | blob | ext => simp [Family.taken]

section Scan

variable {o : Order} {forms : List HeaderForm} {form : HeaderForm} {c : UInt8}

theorem scan_of_mem (hmem : form ∈ forms) (hform : form.Selects c)
    (hone : ∀ a ∈ forms, a.Selects c → a = form) :
    (scan o forms c : Istream σ (Option UInt8 × Nat)) = form.read o c := by
  induction forms with
  | nil => cases hmem
  | cons a forms ih =>
    rw [scan]
    by_cases ha : a.Selects c
    · rw [if_pos ha, hone a List.mem_cons_self ha]
    · rw [if_neg ha]
      have hne : form ≠ a := by
        rintro rfl
        exact ha hform
      exact ih ((List.mem_cons.mp hmem).resolve_left hne) fun b hb => hone b (List.mem_cons_of_mem a hb)

theorem scan_of_none (hnone : ∀ a ∈ forms, ¬ a.Selects c) :
    (scan o forms c : Istream σ (Option UInt8 × Nat)) = Reader.throw (.system .typeError) := by
  induction forms with
  | nil => rfl
  | cons a forms ih =>
    rw [scan, if_neg (hnone a List.mem_cons_self)]
    exact ih fun b hb => hnone b (List.mem_cons_of_mem a hb)

end Scan

/-! ### Runs -/

section Runs

variable {o : Order} {form : HeaderForm} {c : UInt8} {junk : Nat → Nat → UInt8} {pos k : Nat}
  {r : List UInt8} {s : σ}

theorem getNum_run {w : Nat} (hw : w ≤ r.length) :
    getNum o w junk ⟨pos, r, k, s⟩ = .ok (o.value (r.take w), ⟨pos + w, r.drop w, k, s⟩) := by
  by_cases hone : w = 1
  · subst hone
    obtain ⟨b, r, rfl⟩ := List.exists_cons_of_length_pos hw
    have hvalue : o.value [b] = b.toNat := by cases o <;> simp [Order.value, leValue]
    rw [List.take_succ_cons, List.take_zero, hvalue, getNum, if_pos rfl]
    rfl
  · rw [getNum, if_neg hone]
    exact if_neg (Nat.not_lt.mpr hw)

/-- What a number of `w` bytes is completed with behind the bytes `r`. -/
def missing (junk : Nat → Nat → UInt8) (k w : Nat) (r : List UInt8) : List UInt8 :=
  (List.range (w - r.length)).map fun i => junk k (r.length + i)

/-- A number of several bytes that is cut off is none the less returned. -/
theorem getNum_cut {w : Nat} (hw : 1 < w) (hcut : r.length < w) :
    getNum o w junk ⟨pos, r, k, s⟩ =
      .ok (o.value (r ++ missing junk k w r), ⟨pos + r.length, [], k + 1, s⟩) := by
  rw [getNum, if_neg (by omega)]
  exact if_pos hcut

theorem HeaderForm.readLength_complete (h : form.width ≤ r.length) :
    form.readLength o c junk ⟨pos, r, k, s⟩ =
      .ok (form.length o c r, ⟨pos + form.width, r.drop form.width, k, s⟩) := by
  unfold readLength length
  unfold width at h ⊢
  cases hsize : form.size with
  | inCode mask => rfl
  | fixed n => rfl
  | counted w =>
    rw [hsize] at h
    exact getNum_run h

theorem HeaderForm.readLength_cut (hwidth : 1 < form.width) (h : r.length < form.width) :
    form.readLength o c junk ⟨pos, r, k, s⟩ =
      .ok (o.value (r ++ missing junk k form.width r), ⟨pos + r.length, [], k + 1, s⟩) := by
  unfold readLength
  unfold width at h hwidth ⊢
  cases hsize : form.size with
  | inCode mask => simp [hsize] at h
  | fixed n => simp [hsize] at h
  | counted w =>
    rw [hsize] at h hwidth
    exact getNum_cut hwidth h

theorem HeaderForm.readLength_end (hwidth : form.width = 1) :
    form.readLength o c junk ⟨pos, [], k, s⟩ = .error eof := by
  unfold readLength
  unfold width at hwidth
  cases hsize : form.size with
  | inCode mask => simp [hsize] at hwidth
  | fixed n => simp [hsize] at hwidth
  | counted w =>
    obtain rfl : w = 1 := by simpa [hsize] using hwidth
    rfl

/-- All bytes of a header are there. -/
theorem HeaderForm.read_complete (h : form.tail ≤ r.length) :
    form.read o c junk ⟨pos, r, k, s⟩ = .ok ((form.extType r, form.length o c r),
      ⟨pos + form.tail, r.drop form.tail, k, s⟩) := by
  unfold tail at h ⊢
  rw [read, bind_ok (readLength_complete (by omega)), extType]
  by_cases htyped : form.typed
  · rw [if_pos htyped] at h
    have hlt : form.width < r.length := by omega
    simp only [if_pos htyped]
    rw [List.drop_eq_getElem_cons hlt, List.getElem?_eq_getElem hlt]
    rfl
  · simp only [if_neg htyped]
    rfl

/-- An end inside a header is noticed if a type byte follows the length or the length is a byte. -/
theorem HeaderForm.read_short (h : r.length < form.tail) (hcut : form.typed ∨ form.width ≤ 1) :
    form.read o c junk ⟨pos, r, k, s⟩ = .error eof := by
  unfold tail at h
  rw [read]
  by_cases hlength : form.width ≤ r.length
  · -- the type byte is missing
    have htyped : form.typed := by
      by_contra hfalse
      rw [if_neg hfalse] at h
      omega
    rw [if_pos htyped] at h
    have hend : r.drop form.width = [] := List.drop_eq_nil_of_le (by omega)
    rw [bind_ok (readLength_complete hlength), if_pos htyped, hend]
    rfl
  · by_cases hone : form.width = 1
    · have hend : r = [] := List.length_eq_zero_iff.mp (by omega)
      rw [hend]
      exact bind_error (readLength_end hone)
    · -- the length is cut off, and the type byte is missed
      have hwidth : 1 < form.width := by omega
      have htyped : form.typed := hcut.resolve_right (by omega)
      rw [bind_ok (readLength_cut hwidth (Nat.not_le.mp hlength)), if_pos htyped]
      rfl

/-- A length that is cut off at the end of the header is none the less returned. -/
theorem HeaderForm.read_cut (htyped : ¬ form.typed) (hwidth : 1 < form.width) (h : r.length < form.width) :
    form.read o c junk ⟨pos, r, k, s⟩ = .ok ((none, o.value (r ++ missing junk k form.width r)),
      ⟨pos + r.length, [], k + 1, s⟩) := by
  rw [read, bind_ok (readLength_cut hwidth h), if_neg htyped]
  rfl

end Runs

/-! ### What the readers accept -/

section Exact

variable {o : Order} {f g : Family} {c : UInt8} {junk : Nat → Nat → UInt8} {pos k : Nat}
  {r : List UInt8} {s : σ}

/-- The reader takes the complete headers of its family, returns what they say and stops behind
them; on every other stream it reports an error. -/
def Exact (o : Order) (f : Family) (junk : Nat → Nat → UInt8) (st : Input σ) : Prop :=
  (∀ x st', f.read o junk st = .ok (x, st') ↔
    ∃ header r, st.rest = header ++ r ∧ f.Header o header x ∧
      st' = { st with pos := st.pos + header.length, rest := r }) ∧
  ∀ e, f.read o junk st = .error e → e.IsSystem

def Accepts (o : Order) (f : Family) (junk : Nat → Nat → UInt8) (st : Input σ) : Prop :=
  ∃ x st', f.read o junk st = .ok (x, st')

/-- The stream starts as a short array and is read as a map, or it ends in a length of several
bytes. -/
def Misread (f : Family) (bs : List UInt8) : Prop :=
  ∃ c r, bs = c :: r ∧ ((f = .map ∧ Typecode.fixarrayMin ≤ c ∧ c ≤ Typecode.fixarrayMax) ∨
    f ≠ .ext ∧ ∃ form ∈ f.forms, form.Selects c ∧ 1 < form.width ∧ r.length < form.width)

theorem HeaderForm.extType_take (form : HeaderForm) (r : List UInt8) :
    form.extType (r.take form.tail) = form.extType r := by
  unfold extType
  by_cases htyped : form.typed
  · have hlt : form.width < form.tail := by simp [tail, htyped]
    rw [if_pos htyped, if_pos htyped, List.getElem?_take_of_lt hlt]
  · rw [if_neg htyped, if_neg htyped]

theorem HeaderForm.length_take (o : Order) (form : HeaderForm) (c : UInt8) (r : List UInt8) :
    form.length o c (r.take form.tail) = form.length o c r := by
  unfold length
  cases hsize : form.size with
  | inCode mask => rfl
  | fixed n => rfl
  | counted w =>
    have hle : w ≤ form.tail := by
      simp only [tail, width, hsize]
      omega
    simp only [List.take_take, min_eq_left hle]

theorem Family.header_of_selects {form : HeaderForm} (hmem : form ∈ f.forms) (hselects : form.Selects c)
    (htail : form.tail ≤ r.length) :
    f.Header o (c :: r.take form.tail) (form.extType r, form.length o c r) := by
  refine ⟨form, hmem, c, _, rfl, hselects, List.length_take_of_le htail, ?_⟩
  rw [form.extType_take, form.length_take]

/-- The stream starts with a header of the family. -/
theorem header_iff (x : Option UInt8 × Nat) (st' : Input σ) :
    (∃ header r', c :: r = header ++ r' ∧ f.Header o header x ∧
      st' = ⟨pos + header.length, r', k, s⟩) ↔
    ∃ form ∈ f.forms, form.Selects c ∧ form.tail ≤ r.length ∧
      x = (form.extType r, form.length o c r) ∧
      st' = ⟨pos + 1 + form.tail, r.drop form.tail, k, s⟩ := by
  constructor
  · rintro ⟨_, r', hr, ⟨form, hmem, d, ws, rfl, hselects, hws, rfl⟩, rfl⟩
    rw [List.cons_append] at hr
    obtain ⟨rfl, rfl⟩ := List.cons.inj hr
    have htake : (ws ++ r').take form.tail = ws := List.take_left' hws
    refine ⟨form, hmem, hselects, ?_, ?_, ?_⟩
    · rw [List.length_append, hws]
      omega
    · rw [← form.extType_take (ws ++ r'), ← form.length_take o c (ws ++ r'), htake]
    · rw [List.drop_left' hws, List.length_cons, hws, Nat.add_assoc, Nat.add_comm 1]
  · rintro ⟨form, hmem, hselects, htail, rfl, rfl⟩
    have hlength : (r.take form.tail).length = form.tail := List.length_take_of_le htail
    refine ⟨c :: r.take form.tail, r.drop form.tail, ?_,
      Family.header_of_selects hmem hselects htail, ?_⟩
    · rw [List.cons_append, List.take_append_drop]
    · rw [List.length_cons, hlength, Nat.add_assoc, Nat.add_comm 1]

theorem Family.typed_iff {form : HeaderForm} (h : form ∈ f.forms) : form.typed ↔ f = .ext := by
  revert form
  cases f <;> decide

theorem Family.read_run : f.read o junk ⟨pos, c :: r, k, s⟩ =
    (scan o f.taken c : Istream σ _) junk ⟨pos + 1, r, k, s⟩ := by
  rw [read_eq]
  exact bind_ok rfl

theorem Family.not_short_array {form : HeaderForm} (hmem : form ∈ f.forms) (hselects : form.Selects c) :
    ¬ (f = .map ∧ Typecode.fixarrayMin ≤ c ∧ c ≤ Typecode.fixarrayMax) := by
  rintro ⟨rfl, harray⟩
  obtain ⟨heq, -⟩ := form_unique (g := .array) hmem List.mem_cons_self hselects harray
  cases heq

/-- The reader goes on with the form that the first byte selects. -/
theorem Family.read_of_selects {form : HeaderForm} (hmem : form ∈ f.forms) (hselects : form.Selects c) :
    f.read o junk ⟨pos, c :: r, k, s⟩ = form.read o c junk ⟨pos + 1, r, k, s⟩ := by
  have hone : ∀ a ∈ f.forms, a.Selects c → a = form := fun a ha hac =>
    (form_unique ha hmem hac hselects).2
  rw [read_run, scan_taken, if_neg (not_short_array hmem hselects), scan_of_mem hmem hselects hone]

/-- A complete header is read. -/
theorem Family.read_header {header : List UInt8} {x : Option UInt8 × Nat} (h : f.Header o header x) :
    f.read o junk ⟨pos, header ++ r, k, s⟩ = .ok (x, ⟨pos + header.length, r, k, s⟩) := by
  obtain ⟨-, -, c, ws, rfl, -⟩ := id h
  obtain ⟨form, hmem, hselects, htail, rfl, hst⟩ :=
    (header_iff (r := ws ++ r) x ⟨pos + (c :: ws).length, r, k, s⟩).mp ⟨c :: ws, r, rfl, h, rfl⟩
  rw [List.cons_append, read_of_selects hmem hselects, HeaderForm.read_complete htail, hst]

/-- An error is right where no header of the family is complete. -/
theorem exact_of_error {e : Errc} (hread : f.read o junk ⟨pos, c :: r, k, s⟩ = .error (.system e))
    (hnone : ∀ form ∈ f.forms, form.Selects c → r.length < form.tail) :
    Exact o f junk ⟨pos, c :: r, k, s⟩ := by
  constructor
  · intro x st'
    rw [hread, header_iff]
    constructor
    · intro h
      cases h
    · rintro ⟨form, hmem, hselects, htail, -⟩
      exact absurd (hnone form hmem hselects) (Nat.not_lt.mpr htail)
  · intro e' he
    rw [hread] at he
    exact ⟨e, (Except.error.inj he).symm⟩

theorem exact_of_complete {form : HeaderForm} (hmem : form ∈ f.forms) (hselects : form.Selects c)
    (htail : form.tail ≤ r.length) (hread : f.read o junk ⟨pos, c :: r, k, s⟩ =
      .ok ((form.extType r, form.length o c r), ⟨pos + 1 + form.tail, r.drop form.tail, k, s⟩)) :
    Exact o f junk ⟨pos, c :: r, k, s⟩ := by
  constructor
  · intro x st'
    rw [hread, header_iff]
    constructor
    · intro h
      obtain ⟨rfl, rfl⟩ := Prod.mk.inj (Except.ok.inj h)
      exact ⟨form, hmem, hselects, htail, rfl, rfl⟩
    · rintro ⟨form', hmem', hselects', -, rfl, rfl⟩
      obtain ⟨-, rfl⟩ := Family.form_unique hmem hmem' hselects hselects'
      rfl
  · intro e he
    rw [hread] at he
    cases he

theorem not_exact_of_ok {out : (Option UInt8 × Nat) × Input σ}
    (hread : f.read o junk ⟨pos, c :: r, k, s⟩ = .ok out)
    (hnone : ∀ form ∈ f.forms, form.Selects c → r.length < form.tail) :
    ¬ Exact o f junk ⟨pos, c :: r, k, s⟩ := by
  intro hexact
  have hheader := (hexact.1 out.1 out.2).mp hread
  rw [header_iff] at hheader
  obtain ⟨form, hmem, hselects, htail, -⟩ := hheader
  exact absurd (hnone form hmem hselects) (Nat.not_lt.mpr htail)

theorem misread_cons : Misread f (c :: r) ↔
    (f = .map ∧ Typecode.fixarrayMin ≤ c ∧ c ≤ Typecode.fixarrayMax) ∨
      f ≠ .ext ∧ ∃ form ∈ f.forms, form.Selects c ∧ 1 < form.width ∧ r.length < form.width := by
  constructor
  · rintro ⟨d, r', h, hmis⟩
    obtain ⟨rfl, rfl⟩ := List.cons.inj h
    exact hmis
  · exact fun hmis => ⟨c, r, rfl, hmis⟩

theorem HeaderForm.width_le_tail (form : HeaderForm) : form.width ≤ form.tail := Nat.le_add_right _ _

theorem exact_nil : Exact o f junk ⟨pos, [], k, s⟩ := by
  have hread : f.read o junk ⟨pos, [], k, s⟩ = .error eof := by
    rw [Family.read_eq]
    exact bind_error rfl
  constructor
  · intro x st'
    rw [hread]
    constructor
    · intro h
      cases h
    · rintro ⟨_, r, hr, ⟨form, -, d, ws, rfl, -⟩, -⟩
      cases hr
  · intro e he
    rw [hread] at he
    exact ⟨_, (Except.error.inj he).symm⟩

/-- The reader of the form that the first byte selects. -/
theorem exact_iff_of_selects {form : HeaderForm} (hmem : form ∈ f.forms) (hselects : form.Selects c) :
    Exact o f junk ⟨pos, c :: r, k, s⟩ ↔
      ¬ (¬ form.typed ∧ 1 < form.width ∧ r.length < form.width) := by
  have hread : f.read o junk ⟨pos, c :: r, k, s⟩ = _ := Family.read_of_selects hmem hselects
  have hwidth := form.width_le_tail
  by_cases htail : form.tail ≤ r.length
  · rw [HeaderForm.read_complete htail] at hread
    exact iff_of_true (exact_of_complete hmem hselects htail hread) (by omega)
  have hnone : ∀ a ∈ f.forms, a.Selects c → r.length < a.tail := fun a ha hac => by
    rw [(Family.form_unique ha hmem hac hselects).2]
    exact Nat.not_le.mp htail
  by_cases hcut : form.typed ∨ form.width ≤ 1
  · rw [HeaderForm.read_short (Nat.not_le.mp htail) hcut] at hread
    refine iff_of_true (exact_of_error hread hnone) ?_
    rintro ⟨htyped, hlong, -⟩
    exact hcut.elim htyped (by omega)
  · obtain ⟨htyped, hlong⟩ := not_or.mp hcut
    have htail_eq : form.tail = form.width := by simp [HeaderForm.tail, htyped]
    have hshort : r.length < form.width := by omega
    rw [HeaderForm.read_cut htyped (Nat.not_le.mp hlong) hshort] at hread
    exact iff_of_false (not_exact_of_ok hread hnone)
      (not_not_intro ⟨htyped, Nat.not_le.mp hlong, hshort⟩)

/-- A reader is exact on a stream that it does not misread. -/
theorem exact_iff (o : Order) (f : Family) (junk : Nat → Nat → UInt8) (st : Input σ) :
    Exact o f junk st ↔ ¬ Misread f st.rest := by
  obtain ⟨pos, rest, k, s⟩ := st
  cases rest with
  | nil =>
    refine iff_of_true exact_nil ?_
    rintro ⟨d, r, hr, -⟩
    cases hr
  | cons c r =>
    rw [misread_cons]
    by_cases hform : ∃ form ∈ f.forms, form.Selects c
    · obtain ⟨form, hmem, hselects⟩ := hform
      rw [exact_iff_of_selects hmem hselects, Family.typed_iff hmem,
        or_iff_right (Family.not_short_array hmem hselects)]
      refine not_congr (and_congr Iff.rfl ⟨fun h => ⟨form, hmem, hselects, h⟩, ?_⟩)
      rintro ⟨a, ha, hac, h⟩
      rwa [(Family.form_unique ha hmem hac hselects).2] at h
    · -- no form begins so, but the reader of maps takes the short arrays
      have hnone : ∀ a ∈ f.forms, ¬ a.Selects c := fun a ha hac => hform ⟨a, ha, hac⟩
      have hlength : ∀ a ∈ f.forms, a.Selects c → r.length < a.tail := fun a ha hac =>
        absurd hac (hnone a ha)
      have hread : f.read o junk ⟨pos, c :: r, k, s⟩ = _ := Family.read_run
      rw [scan_taken, scan_of_none hnone] at hread
      rw [or_iff_left (by rintro ⟨-, a, ha, hac, -⟩; exact hnone a ha hac)]
      by_cases harray : f = .map ∧ Typecode.fixarrayMin ≤ c ∧ c ≤ Typecode.fixarrayMax
      · rw [if_pos harray] at hread
        exact iff_of_false (not_exact_of_ok hread hlength) (not_not_intro harray)
      · rw [if_neg harray] at hread
        exact iff_of_true (exact_of_error hread hlength) harray

/-- What two exact readers accept differs. -/
theorem family_unique {st : Input σ} (hf : Exact o f junk st) (hg : Exact o g junk st)
    (hfa : Accepts o f junk st) (hga : Accepts o g junk st) : f = g := by
  obtain ⟨x, st', hx⟩ := hfa
  obtain ⟨y, st'', hy⟩ := hga
  obtain ⟨_, r, hr, ⟨a, ha, c, ws, rfl, hac, -⟩, -⟩ := (hf.1 x st').mp hx
  obtain ⟨_, r', hr', ⟨b, hb, d, ws', rfl, hbd, -⟩, -⟩ := (hg.1 y st'').mp hy
  rw [hr, List.cons_append, List.cons_append] at hr'
  obtain ⟨rfl, -⟩ := List.cons.inj hr'
  exact (Family.form_unique ha hb hac hbd).1

end Exact

/-- On every stream: the five readers are exact, and no two accept it, just when none misreads it. -/
theorem headers_exact_iff (o : Order) (junk : Nat → Nat → UInt8) (st : Input σ) :
    ((∀ f, Exact o f junk st) ∧ ∀ f g, Accepts o f junk st → Accepts o g junk st → f = g) ↔
      ∀ f, ¬ Misread f st.rest := by
  constructor
  · exact fun h f => (exact_iff o f junk st).mp (h.1 f)
  · intro h
    have hexact : ∀ f, Exact o f junk st := fun f => (exact_iff o f junk st).mpr (h f)
    exact ⟨hexact, fun f g => family_unique (hexact f) (hexact g)⟩

/-- The header of an array of two elements is one of a map as well, and a string header that ends
within its length is accepted. -/
theorem headers_misread :
    ¬ ((∀ f, Exact .big f (fun _ _ => 0) ⟨0, [0x92], 0, ()⟩) ∧
      ∀ f g, Accepts .big f (fun _ _ => 0) ⟨0, [0x92], 0, ()⟩ →
        Accepts .big g (fun _ _ => 0) ⟨0, [0x92], 0, ()⟩ → f = g) ∧
    ¬ ((∀ f, Exact .big f (fun _ _ => 0) ⟨0, [0xda, 0x01], 0, ()⟩) ∧
      ∀ f g, Accepts .big f (fun _ _ => 0) ⟨0, [0xda, 0x01], 0, ()⟩ →
        Accepts .big g (fun _ _ => 0) ⟨0, [0xda, 0x01], 0, ()⟩ → f = g) := by
  constructor
  · rintro ⟨-, hunique⟩
    have heq := hunique .array .map ⟨_, _, rfl⟩ ⟨_, _, rfl⟩
    cases heq
  · rintro ⟨hexact, -⟩
    refine (exact_iff .big .string _ _).mp (hexact .string) ⟨0xda, [0x01], rfl, .inr ?_⟩
    exact ⟨by decide, .one Typecode.str16 (.counted 2) false, by decide, by decide, by decide, by decide⟩

end Nodeoze.Bstream
