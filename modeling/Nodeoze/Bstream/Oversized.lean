import Nodeoze.Any.Sizes
import Nodeoze.Bstream.Ext
import Nodeoze.Bstream.WholeFormat

/-!
# Sizes from 2 ^ 32 on

A header has at most 32 bits for a size.  The serializers of strings and `write_ext` of a buffer or a
vector check the size; everywhere else a `size_t` is handed to a writer of headers whose parameter is a
`std::uint32_t`, and what is written is the size modulo `2 ^ 32`.  `unharmed_iff` says of which values
this does no harm.
-/

namespace Nodeoze.Bstream

open Reader Endian Any

variable {σ α : Type}

/-- The value is refused, or what is written of it is read back as the same value and taken
exactly, whatever follows it. -/
def Unharmed (written : Except Fault (List Chunk)) (p : Istream σ α) (s : σ) (Same : α → Prop) : Prop :=
  ∀ ts, written = .ok ts → ∀ junk pos r n, ∃ a s', Same a ∧
    p junk ⟨pos, bytes ts ++ r, n, s⟩ = .ok (a, ⟨pos + (bytes ts).length, r, n, s'⟩)

section

variable {p : Istream σ α} {s s' : σ} {ts : List Chunk} {a : α} {Same : α → Prop}

theorem unharmed_of_error {e : Fault} : Unharmed (.error e) p s Same := by
  intro ts h
  cases h

theorem unharmed_of_reads (h : Reads eof p s ts a s') (ha : Same a) : Unharmed (.ok ts) p s Same := by
  intro us hus junk pos r n
  obtain rfl := Except.ok.inj hus
  exact ⟨a, s', ha, h.full junk pos r n⟩

/-- What a reader returns is all that can come back. -/
theorem Unharmed.returns {I : σ → Prop} {Q : α → Prop} (h : Unharmed (.ok ts) p s Same)
    (hp : Ensures I p Q) (hs : I s) : ∃ a, Same a ∧ Q a := by
  obtain ⟨a, s', ha, hrun⟩ := h ts rfl (fun _ _ => 0) 0 [] 0
  exact ⟨a, ha, (hp _ _ a _ hs hrun).1⟩

theorem not_unharmed_of_fails (h : Fails p s ts) : ¬ Unharmed (.ok ts) p s Same := by
  intro hun
  obtain ⟨a, s', -, hrun⟩ := hun ts rfl (fun _ _ => 0) 0 [] 0
  obtain ⟨e, he⟩ := h (fun _ _ => 0) 0 [] 0
  rw [hrun] at he
  cases he

end

/-! ### Blobs and extension objects -/

section

variable (o : Order) (s : σ) (extType : UInt8) (bs : List UInt8)

theorem unharmed_blob_iff :
    Unharmed (.ok (writeBlob o bs)) (readBlob o) s (· = bs) ↔ bs.length < 2 ^ 32 := by
  constructor
  · intro h
    obtain ⟨a, rfl, ha⟩ := h.returns (ensures_readBlob (I := fun _ => True) o) trivial
    exact ha
  · exact fun hn => unharmed_of_reads (reads_readBlob o hn s) rfl

theorem unharmed_extBytes :
    Unharmed (writeExtBytes o extType bs) (readExt o) s (· = (extType, bs)) := by
  by_cases hn : bs.length < 2 ^ 32
  · obtain ⟨ts, hts, hbytes⟩ := writeExtBytes_eq o extType hn
    rw [hts]
    intro us hus junk pos r n
    obtain rfl := Except.ok.inj hus
    have hread := (reads_readExt o extType hn s).full junk pos r n
    have heq : bytes (writeExtHeader o extType bs.length ++ [.raw bs]) = bytes ts := by
      rw [hbytes, bytes_append, bytes_cons, bytes_nil, List.append_nil]
      rfl
    rw [heq] at hread
    exact ⟨(extType, bs), s, rfl, hread⟩
  · have hrefused : writeExtBytes o extType bs = .error (.system .invalidArgument) := by
      simp only [writeExtBytes]
      rw [if_neg (by omega), if_neg (by omega), if_neg (by omega), if_neg (by omega),
        if_neg (by omega), if_neg (by omega), if_neg (by omega), if_neg (by omega)]
    rw [hrefused]
    exact unharmed_of_error

theorem ensures_readExt {I : σ → Prop} :
    Ensures I (readExt o : Istream σ (UInt8 × List UInt8)) (·.2.length < 2 ^ 32) := by
  have htype : ∀ n, n < 2 ^ 32 → Ensures I
      (do let t ← getNum o 1; pure (UInt8.ofNat t, n) : Istream σ (UInt8 × Nat)) (·.2 < 2 ^ 32) :=
    fun n hn => (ensures_number o (by decide)).bind fun t _ => .pure hn
  have hlength : ∀ w, w ≤ 4 → Ensures I
      (do let n ← getNum o w; let t ← getNum o 1; pure (UInt8.ofNat t, n) : Istream σ (UInt8 × Nat))
      (·.2 < 2 ^ 32) := fun w hw => (ensures_number o hw).bind htype
  have hheader : Ensures I (readExtHeader o : Istream σ (UInt8 × Nat)) (·.2 < 2 ^ 32) := by
    refine ensures_get.bind fun _ _ => ?_
    exact .ite (htype 1 (by decide)) <| .ite (htype 2 (by decide)) <| .ite (htype 4 (by decide)) <|
      .ite (htype 8 (by decide)) <| .ite (htype 16 (by decide)) <| .ite (hlength 1 (by decide)) <|
      .ite (hlength 2 (by decide)) <| .ite (hlength 4 (by decide)) (.throw _)
  exact hheader.bind fun header hlt => (ensures_getn hlt).wrap (fun body => (header.1, body)) fun _ h => h

theorem unharmed_extData_iff :
    Unharmed (.ok (writeExtData o extType bs bs.length)) (readExt o) s (· = (extType, bs)) ↔
      bs.length < 2 ^ 32 := by
  constructor
  · intro h
    obtain ⟨a, rfl, ha⟩ := h.returns (ensures_readExt (I := fun _ => True) o) trivial
    exact ha
  · intro hn
    have hread := reads_readExt o extType hn s
    rw [writeExtData, Nat.mod_eq_of_lt hn, List.take_length]
    exact unharmed_of_reads hread rfl

end

/-! ### Values of a type -/

/-- What comes back is small. -/
theorem small_of_unharmed {C : Context} {t : Ty} {v : Val} {fuel : Nat} {seen : List Nat}
    (h : Unharmed ((C.put v {}).map Prod.fst) (C.readAs fuel t) {} (fun v' => C.Copies v v' seen))
    (hlong : ¬ v.Overlong) : v.Small := by
  obtain ⟨ts, w, hput⟩ := Context.put_ok (C := C) hlong {}
  rw [hput] at h
  have hfresh : SavedSmall {} := fun _ h => nomatch h
  obtain ⟨v', hcopies, hv'⟩ := Unharmed.returns h (ensures_readAs fuel t) hfresh
  exact Val.small_of_erase_eq hcopies.1 hv'

theorem unharmed_value_iff {C : Context} {t : Ty} {v : Val} (h : Typed C t v) {heap : Nat → Val}
    (hco : v.Coherent heap) {fuel : Nat} (hfuel : v.depth ≤ fuel) :
    Unharmed ((C.put v {}).map Prod.fst) (C.readAs fuel t) {} (fun v' => C.Copies v v' (v.visit [])) ↔
      v.Overlong ∨ v.Small ∧ C.Good v [] := by
  by_cases hlong : v.Overlong
  · obtain ⟨e, he⟩ := (Context.put_refuses_iff (C := C) hco).mpr hlong
    rw [he]
    exact iff_of_true unharmed_of_error (.inl hlong)
  rw [or_iff_right hlong]
  by_cases hsmall : v.Small
  · rw [and_iff_right hsmall]
    obtain ⟨ts, w, hput, hread⟩ := Context.fresh (h.hasTy hsmall) hco
    have hwritten : (C.put v {}).map Prod.fst = .ok ts := by
      rw [hput]
      rfl
    rw [hwritten]
    rcases hread fuel hfuel with ⟨hgood, v', s', hr, hcopies⟩ | ⟨hbad, hfails⟩
    · exact iff_of_true (unharmed_of_reads hr hcopies) hgood
    · exact iff_of_false (not_unharmed_of_fails hfails) hbad
  · exact iff_of_false (fun hun => hsmall (small_of_unharmed hun hlong)) fun h => hsmall h.1

/-! ### Values of any type -/

theorem unharmed_any_iff (widen : Nat → Nat) (o : Order) {x : Any} (hx : x.Distinct) :
    Unharmed (x.put o) (ofStream widen o) () (fun y => x.equals y = true) ↔
      x.Overlong ∨ x.Small ∧ x.Readable := by
  by_cases hlong : x.Overlong
  · obtain ⟨e, he⟩ := (put_refuses_iff o x).mpr hlong
    rw [he]
    exact iff_of_true unharmed_of_error (.inl hlong)
  rw [or_iff_right hlong]
  obtain ⟨us, hput⟩ := (put_ok_iff o x).mpr hlong
  rw [hput]
  have hback : x.Small → (Unharmed (.ok us) (ofStream widen o) () (fun y => x.equals y = true) ↔
      x.Readable) := by
    intro hsmall
    have hwf := wf_of_small hx hsmall
    obtain ⟨ts, hts, hout⟩ := outcome_ofStream widen o x hwf
    obtain rfl := Except.ok.inj (hput.symm.trans hts)
    rw [← hout.comes_back_iff (fun y => x.equals y = true) (equals_refl x hwf)]
    constructor
    · intro hun junk pos r n
      obtain ⟨y, s', hy, hrun⟩ := hun us rfl junk pos r n
      exact ⟨y, hrun, hy⟩
    · intro h vs hvs junk pos r n
      obtain rfl := Except.ok.inj hvs
      obtain ⟨y, hrun, hy⟩ := h junk pos r n
      exact ⟨y, (), hy, hrun⟩
  constructor
  · intro hun
    obtain ⟨y, hxy, hy⟩ := hun.returns (ensures_ofStream widen o) trivial
    have hsmall := small_of_equals x y hxy hy
    exact ⟨hsmall, (hback hsmall).mp hun⟩
  · exact fun h => (hback h.1).mpr h.2

/-! ### Everything that has a size -/

/-- What can be put on a stream as a whole. -/
inductive Item
  /-- `write_blob` -/
  | blob (bs : List UInt8)
  | extBuffer (extType : UInt8) (bs : List UInt8)
  | extVector (extType : UInt8) (bs : List UInt8)
  /-- `write_ext` of a pointer with a size -/
  | extData (extType : UInt8) (bs : List UInt8)
  /-- `operator<<` of a value of the type: a string, a buffer, a container or any other -/
  | value (t : Ty) (v : Val)
  | any (x : Any)

namespace Item

/-- A value of a type is one that a variable of the type can hold, an object has no key twice. -/
def Valid (C : Context) : Item → Prop
  | value t v => Typed C t v ∧ ∃ heap, v.Coherent heap
  | any x => x.Distinct
  | _ => True

/-- How deep the reader has to go. -/
def depth : Item → Nat
  | value _ v => v.depth
  | _ => 0

/-- Writing refuses the item, or reading gives it back. -/
def Survives (C : Context) (fuel : Nat) : Item → Prop
  | blob bs => Unharmed (.ok (writeBlob C.order bs)) (readBlob C.order) () (· = bs)
  | extBuffer ty bs => Unharmed (writeExtBuffer C.order ty bs) (readExt C.order) () (· = (ty, bs))
  | extVector ty bs => Unharmed (writeExtVector C.order ty bs) (readExt C.order) () (· = (ty, bs))
  | extData ty bs =>
    Unharmed (.ok (writeExtData C.order ty bs bs.length)) (readExt C.order) () (· = (ty, bs))
  | value t v => Unharmed ((C.put v {}).map Prod.fst) (C.readAs fuel t) {}
      fun v' => C.Copies v v' (v.visit [])
  | any x => Unharmed (x.put C.order) (ofStream C.widen C.order) () fun y => x.equals y = true

/-- A string is too long, and is refused; or there is no size from `2 ^ 32` on, and nothing else that
keeps the value from being read. -/
def Fits (C : Context) : Item → Prop
  | blob bs => bs.length < 2 ^ 32
  | extBuffer _ _ => True
  | extVector _ _ => True
  | extData _ bs => bs.length < 2 ^ 32
  | value _ v => v.Overlong ∨ v.Small ∧ C.Good v []
  | any x => x.Overlong ∨ x.Small ∧ x.Readable

/-- A size from `2 ^ 32` on that is checked does no harm, one that is not checked always does. -/
theorem survives_iff (C : Context) (i : Item) (hi : i.Valid C) (fuel : Nat) (hfuel : i.depth ≤ fuel) :
    i.Survives C fuel ↔ i.Fits C := by
  cases i with
  | blob bs => exact unharmed_blob_iff C.order () bs
  | extBuffer ty bs => exact iff_of_true (unharmed_extBytes C.order () ty bs) trivial
  | extVector ty bs => exact iff_of_true (unharmed_extBytes C.order () ty bs) trivial
  | extData ty bs => exact unharmed_extData_iff C.order () ty bs
  | value t v =>
    obtain ⟨hty, heap, hco⟩ := hi
    exact unharmed_value_iff hty hco hfuel
  | any x => exact unharmed_any_iff C.widen C.order hi

/-- A vector of two strings. -/
theorem survives_strings :
    (value (.seq .vector .string) (.seq [.string [0x61], .string []])).Survives (Context.twoBases true) 2 := by
  have hvalid : (value (.seq .vector .string) (.seq [.string [0x61], .string []])).Valid
      (Context.twoBases true) := by
    refine ⟨.seq ?_, fun _ => .null, ?_⟩
    · intro v hv
      rcases List.mem_pair.mp hv with rfl | rfl
      · exact .string [0x61]
      · exact .string []
    · intro n hn
      cases hn
  refine (survives_iff (Context.twoBases true) _ hvalid 2 (by decide)).mpr (.inr ⟨?_, rfl, ?_⟩)
  · simp [Val.Small, Val.SmallAll]
  · intro _ k hk
    cases hk

/-- The header of `2 ^ 32` bytes is that of none, and neither a blob nor a vector of that size comes
back. -/
theorem size_wraps : writeBlobHeader .big (2 ^ 32) = writeBlobHeader .big 0 ∧
    ¬ (blob (List.replicate (2 ^ 32) 0)).Survives (Context.twoBases true) 0 ∧
    ¬ (value (.seq .vector .bool) (.seq (List.replicate (2 ^ 32) (.bool true)))).Survives
      (Context.twoBases true) 2 := by
  refine ⟨rfl, ?_, ?_⟩
  · intro h
    have hlt := (unharmed_blob_iff _ () _).mp h
    rw [List.length_replicate] at hlt
    exact lt_irrefl _ hlt
  · have helem : ∀ v ∈ List.replicate (2 ^ 32) (Val.bool true), v = .bool true :=
      fun v hv => List.eq_of_mem_replicate hv
    have hlong : ¬ (Val.seq (List.replicate (2 ^ 32) (.bool true))).Overlong := by
      intro hlong
      obtain ⟨v, hv, hv'⟩ := Val.overlongAny_iff.mp hlong
      rw [helem v hv] at hv'
      exact hv'
    intro h
    have hlt := (small_of_unharmed h hlong).1
    rw [List.length_replicate] at hlt
    exact lt_irrefl _ hlt

end Item

end Nodeoze.Bstream
