import Nodeoze.Lib.Fallible
import Nodeoze.Bstream.SharedGraph

/-!
# Round trips

`RoundTrips p v` is the contract between the writer and the reader `p` of one type: `put` never
refuses `v`, and from any pair of tables in step, `p` reads a copy of `v` back from the chunks and
leaves the tables in step again if `v` is good, and reports an error if it is not.  The contract
is proved for each type constructor from the contracts of the components; `roundTrips` puts them
together by induction over the typing of `v`.
-/

namespace Nodeoze.Bstream

open Reader

namespace Context

variable (C : Context) (heap : Nat → Val)

/-- `v'` has the contents of `v`; with deduplication its objects are numbered by `seen`. -/
def Copies (v v' : Val) (seen : List Nat) : Prop :=
  v'.erase = v.erase ∧ (C.dedupSharedPtrs = true → v' = v.rename fun a => seen.idxOf a)

def CopiesAll (vs vs' : List Val) (seen : List Nat) : Prop :=
  vs'.map Val.erase = vs.map Val.erase ∧
    (C.dedupSharedPtrs = true → vs' = vs.map (Val.rename fun a => seen.idxOf a))

structure RoundTrips (p : Read Val) (v : Val) : Prop where
  writes : ∀ w, ∃ ts w', C.put v w = .ok (ts, w')
  reads : v.Coherent heap → ∀ seen w s ts w', C.Sync heap seen w s → C.put v w = .ok (ts, w') →
    (C.Good v seen ∧ ∃ v' s', Reads eof p s ts v' s' ∧ C.Copies v v' (v.visit seen) ∧
      C.Sync heap (v.visit seen) w' s') ∨
    (¬ C.Good v seen ∧ Fails p s ts)

structure RoundTripsAll (ps : List (Read Val)) (vs : List Val) : Prop where
  writes : ∀ w, ∃ ts w', C.putAll vs w = .ok (ts, w')
  reads : (∀ v ∈ vs, v.Coherent heap) → ∀ seen w s ts w', C.Sync heap seen w s →
    C.putAll vs w = .ok (ts, w') →
    (C.GoodAll vs seen ∧ ∃ vs' s', Reads eof (each ps) s ts vs' s' ∧
      C.CopiesAll vs vs' (Val.visitAll vs seen) ∧ C.Sync heap (Val.visitAll vs seen) w' s') ∨
    (¬ C.GoodAll vs seen ∧ Fails (each ps) s ts)

variable {C heap}

theorem RoundTripsAll.nil : C.RoundTripsAll heap [] [] where
  writes := fun w => ⟨[], w, rfl⟩
  reads := by
    intro _ seen w s ts w' hsync hput
    cases hput
    exact .inl ⟨C.goodAll_nil seen, [], s, Reads.pure [] s, ⟨rfl, fun _ => rfl⟩, hsync⟩

/-- A copy made early is the copy made at the end. -/
theorem copies_visitAll {v v' : Val} (vs : List Val) {seen : List Nat} {w : SavedTags}
    {s : SavedPtrs} (hsync : C.Sync heap seen w s) (hco : v.Coherent heap)
    (h : C.Copies v v' (v.visit seen)) : C.Copies v v' (Val.visitAll vs (v.visit seen)) := by
  refine ⟨h.1, ?_⟩
  intro hd
  have hnodes := (visits heap v hco seen (hsync hd).closed).1
  rw [h.2 hd, rename_idxOf_of_extends (visitAll_extends vs _) hnodes]

theorem RoundTripsAll.cons {p : Read Val} {ps : List (Read Val)} {v : Val} {vs : List Val}
    (hv : C.RoundTrips heap p v) (hvs : C.RoundTripsAll heap ps vs) :
    C.RoundTripsAll heap (p :: ps) (v :: vs) where
  writes := by
    intro w
    obtain ⟨ts, w₁, h1⟩ := hv.writes w
    obtain ⟨us, w₂, h2⟩ := hvs.writes w₁
    exact ⟨ts ++ us, w₂, by simp [putAll, h1, h2, Except.bind, Except.map]⟩
  reads := by
    intro hco seen w s cs w' hsync hput
    obtain ⟨hcv, hcvs⟩ := List.forall_mem_cons.mp hco
    obtain ⟨ts, w₁, h1⟩ := hv.writes w
    obtain ⟨us, w₂, h2⟩ := hvs.writes w₁
    simp only [putAll, h1, h2, Except.bind, Except.map, Except.ok.injEq, Prod.mk.injEq] at hput
    obtain ⟨rfl, rfl⟩ := hput
    rcases hv.reads hcv seen w s ts w₁ hsync h1 with ⟨hg, v', s₁, hr, hcp, hs₁⟩ | ⟨hg, hf⟩
    · rcases hvs.reads hcvs _ w₁ s₁ us w₂ hs₁ h2 with ⟨hgs, vs', s₂, hrs, hcps, hs₂⟩ | ⟨hgs, hfs⟩
      · refine .inl ⟨C.goodAll_cons.mpr ⟨hg, hgs⟩, v' :: vs', s₂, ?_, ?_, hs₂⟩
        · exact Reads.bind hr (Reads.then_pure (v' :: ·) hrs)
        · have hcp' := copies_visitAll vs hsync hcv hcp
          refine ⟨by simp [hcp.1, hcps.1], ?_⟩
          intro hd
          simp only [Val.visitAll, List.map_cons, ← hcp'.2 hd, ← hcps.2 hd]
      · exact .inr ⟨fun h => hgs (C.goodAll_cons.mp h).2, Fails.bind_right hr hfs.bind⟩
    · exact .inr ⟨fun h => hg (C.goodAll_cons.mp h).1, Fails.bind_left hf us⟩

/-- Components that round trip one by one round trip together. -/
theorem RoundTripsAll.of_forall {p : Ty → Read Val} {tys : List Ty} {vs : List Val}
    (hlen : vs.length = tys.length)
    (h : ∀ (i : Nat) t v, tys[i]? = some t → vs[i]? = some v → C.RoundTrips heap (p t) v) :
    C.RoundTripsAll heap (tys.map p) vs := by
  induction tys generalizing vs with
  | nil =>
    rw [List.length_eq_zero_iff.mp hlen]
    exact RoundTripsAll.nil
  | cons t tys ih =>
    obtain _ | ⟨v, vs⟩ := vs
    · cases hlen
    · refine RoundTripsAll.cons (h 0 t v rfl rfl) (ih (by simpa using hlen) ?_)
      intro i t' v' ht hv
      exact h (i + 1) t' v' (by simpa using ht) (by simpa using hv)

theorem RoundTripsAll.replicate {p : Read Val} {vs : List Val}
    (h : ∀ v ∈ vs, C.RoundTrips heap p v) :
    C.RoundTripsAll heap (List.replicate vs.length p) vs := by
  induction vs with
  | nil => exact RoundTripsAll.nil
  | cons v vs ih =>
    obtain ⟨hv, hvs⟩ := List.forall_mem_cons.mp h
    exact RoundTripsAll.cons hv (ih hvs)

/-! ### Scalars -/

/-- A value that is read from its own chunks and holds no pointers. -/
theorem RoundTrips.scalar {p : Read Val} {v : Val} {ts : List Chunk}
    (hput : ∀ w, C.put v w = .ok (ts, w)) (hread : ∀ s, Reads eof p s ts v s)
    (hnodes : v.nodes = []) (hvisit : ∀ seen, v.visit seen = seen)
    (hgood : ∀ seen, C.Good v seen) : C.RoundTrips heap p v where
  writes := fun w => ⟨ts, w, hput w⟩
  reads := by
    intro _ seen w s cs w' hsync hw
    rw [hput, Except.ok.injEq, Prod.mk.injEq] at hw
    obtain ⟨rfl, rfl⟩ := hw
    refine .inl ⟨hgood seen, v, s, hread s, ⟨rfl, fun _ => ?_⟩, by rwa [hvisit]⟩
    exact (Val.rename_of_nodes_nil hnodes _).symm

theorem good_of_aligned {v : Val} (h1 : C.aligned v = true) (h2 : ∀ seen, v.repeats seen = [])
    (seen : List Nat) : C.Good v seen :=
  ⟨h1, fun _ k hk => by rw [h2] at hk; cases hk⟩

theorem RoundTrips.bool {p : Read Val} {b : Bool}
    (hread : ∀ s, Reads eof p s (putBool b) (.bool b) s) : C.RoundTrips heap p (.bool b) :=
  .scalar (fun _ => rfl) hread rfl (fun _ => rfl) (good_of_aligned rfl fun _ => rfl)

theorem RoundTrips.int {p : Read Val} {sg : Bool} {wd : Width} {i : Int}
    (hread : ∀ s, Reads eof p s (putInt C.order sg i) (.int sg wd i) s) :
    C.RoundTrips heap p (.int sg wd i) :=
  .scalar (fun _ => rfl) hread rfl (fun _ => rfl) (good_of_aligned rfl fun _ => rfl)

/-! ### Sequences and objects -/

/-- The two constructors that hold their components as a list. -/
inductive IsNode : (List Val → Val) → Prop
  | seq : IsNode .seq
  | obj (c : Nat) : IsNode (.obj c)

/-- A header, then the components: the reader collects them with `m`, which for the components
read is the constructor of the value. -/
theorem RoundTrips.node {ps : List (Read Val)} {vs : List Val} {con m : List Val → Val}
    {hdr : List Chunk} {α : Type} {hd : Read α} {a : α} {k : α → Read Val}
    (hcon : IsNode con) (hall : C.RoundTripsAll heap ps vs)
    (hput : ∀ w ts w', C.putAll vs w = .ok (ts, w') → C.put (con vs) w = .ok (hdr ++ ts, w'))
    (hhd : ∀ s, Reads eof hd s hdr a s)
    (hk : k a = (do let us ← each ps; pure (m us)))
    (hmk : ∀ us, us.map Val.erase = vs.map Val.erase → m us = con us) :
    C.RoundTrips heap (hd >>= k) (con vs) where
  writes := by
    intro w
    obtain ⟨ts, w', h⟩ := hall.writes w
    exact ⟨hdr ++ ts, w', hput w ts w' h⟩
  reads := by
    intro hco seen w s cs w' hsync hw
    obtain ⟨ts, w₁, h1⟩ := hall.writes w
    rw [hput w ts w₁ h1, Except.ok.injEq, Prod.mk.injEq] at hw
    obtain ⟨rfl, rfl⟩ := hw
    have hcoAll : ∀ v ∈ vs, v.Coherent heap := by
      cases hcon <;> exact coherent_of_mem (by simpa [Val.Coherent, Val.nodes] using hco)
    have hvisit : (con vs).visit seen = Val.visitAll vs seen := by cases hcon <;> rfl
    have hgood : C.Good (con vs) seen ↔ C.GoodAll vs seen := by cases hcon <;> exact Iff.rfl
    rw [hvisit, hgood]
    rcases hall.reads hcoAll seen w s ts w₁ hsync h1 with ⟨hg, us, s', hr, hcp, hs⟩ | ⟨hg, hf⟩
    · refine .inl ⟨hg, con us, s', ?_, ⟨?_, ?_⟩, hs⟩
      · have hthen := Reads.then_pure m hr
        rw [hmk us hcp.1] at hthen
        exact Reads.bind (hhd s) (by rw [hk]; exact hthen)
      · have he : us.map (Val.rename fun _ => 0) = vs.map (Val.rename fun _ => 0) := hcp.1
        cases hcon <;> simp [Val.erase, Val.rename, he]
      · intro hd
        rw [hcp.2 hd]
        cases hcon <;> simp [Val.rename]
    · exact .inr ⟨hg, Fails.bind_right (hhd s) (by rw [hk]; exact hf.bind)⟩

/-- Reading a container whose insertion puts every element where the original has it. -/
theorem RoundTrips.container {p : Ty → Read Val} {t : Ty} {vs : List Val}
    {add : Val → List Val → List Val} (hlen : vs.length < 2 ^ 32)
    (hall : ∀ v ∈ vs, C.RoundTrips heap (p t) v)
    (hadd : ∀ us : List Val, us.map Val.erase = vs.map Val.erase →
      us.foldl (fun acc v => add v acc) [] = us) :
    C.RoundTrips heap (C.readContainer p add t) (.seq vs) := by
  refine RoundTrips.node (m := fun us => .seq (us.foldl (fun acc v => add v acc) [])) .seq
    (RoundTripsAll.replicate hall) ?_ (fun s => reads_readArrayHeader C.order hlen s) ?_ ?_
  · intro w ts w' h
    simp [put, h, Except.map]
  · simp only [loop_eq_each, bind_assoc, pure_bind]
  · intro us hus
    simp only [hadd us hus]

theorem foldl_concat (us acc : List Val) :
    us.foldl (fun acc v => acc ++ [v]) acc = acc ++ us := by
  induction us generalizing acc with
  | nil => simp
  | cons u us ih => simp [ih]

/-- Inserting the elements in iteration order rebuilds the container. -/
theorem foldl_emplace {key : Val → Val} {k : Assoc} (us acc : List Val)
    (h : (acc ++ us).Pairwise (C.Precedes key k)) :
    us.foldl (fun acc v => C.emplace key k v acc) acc = acc ++ us := by
  induction us generalizing acc with
  | nil => simp
  | cons u us ih =>
    have hlast : ∀ y ∈ acc, C.Precedes key k y u := by
      intro y hy
      exact (List.pairwise_append.mp h).2.2 y hy u (by simp)
    rw [List.foldl_cons, emplace_of_forall_precedes hlast, ih (acc ++ [u]) (by simpa using h)]
    simp

theorem foldl_emplace_of_erase {key : Val → Val} {k : Assoc}
    (hkey : ∀ v : Val, key v.erase = (key v).erase) {vs us : List Val}
    (hvs : vs.Pairwise (C.Precedes key k)) (he : us.map Val.erase = vs.map Val.erase) :
    us.foldl (fun acc v => C.emplace key k v acc) [] = us := by
  have hus : us.Pairwise (C.Precedes key k) := pairwise_precedes_of_erase hkey hvs he
  simpa using foldl_emplace us [] (by simpa using hus)

/-! ### Pointers -/

/-- The codes of array headers. -/
def ArrayCode (c : UInt8) : Prop := c ≠ Typecode.nil ∧ Typecode.isPositiveInt c = false

theorem writeArrayHeader_head (o : Endian.Order) (n : Nat) :
    StartsWith (fun c => ArrayCode c ∧ c ≠ Typecode.uint32) (writeArrayHeader o n) := by
  simp only [writeArrayHeader]
  split_ifs with h1 h2
  · refine ⟨_, _, rfl, ?_⟩
    have hcodes : ∀ k : Fin 16, (0x90 ||| UInt8.ofNat k ≠ Typecode.nil ∧
        Typecode.isPositiveInt (0x90 ||| UInt8.ofNat k) = false) ∧
        0x90 ||| UInt8.ofNat k ≠ Typecode.uint32 := by decide
    exact hcodes ⟨n % 2 ^ 32, by omega⟩
  · exact ⟨_, _, rfl, ⟨by decide, by decide⟩, by decide⟩
  · exact ⟨_, _, rfl, ⟨by decide, by decide⟩, by decide⟩

/-- A number whose code `is_positive_int` takes for that of a positive number: one that is not
negative and is not written with 32 bits. -/
def numbered : Val → Bool
  | .int sg _ i => (!sg || decide (0 ≤ i)) && !misread i.toNat
  | _ => false

/-- A type code as the reader of a pointer sees it: not nil, and that of a positive number or not. -/
def CodeOf (positive : Bool) (c : UInt8) : Prop :=
  c ≠ Typecode.nil ∧ Typecode.isPositiveInt c = positive

theorem putUnsigned_code {n : Nat} (o : Endian.Order) :
    StartsWith (fun c => c ≠ Typecode.nil ∧ Typecode.isPositiveInt c = !misread n ∧
      (misread n = true → c = Typecode.uint32)) (putUnsigned o n) := by
  unfold putUnsigned
  split_ifs with h1 h2 h3 h4
  · have hcodes : ∀ k : Fin 128, UInt8.ofNat k ≠ Typecode.nil ∧
        Typecode.isPositiveInt (UInt8.ofNat k) = true := by decide
    have hm : misread n = false := by simp [misread]; omega
    obtain ⟨hc1, hc2⟩ := hcodes ⟨n, by omega⟩
    exact ⟨_, _, rfl, hc1, by rw [hm]; exact hc2, by simp [hm]⟩
  · have hm : misread n = false := by simp [misread]; omega
    exact ⟨_, _, rfl, by decide, by rw [hm]; decide, by simp [hm]⟩
  · have hm : misread n = false := by simp [misread]; omega
    exact ⟨_, _, rfl, by decide, by rw [hm]; decide, by simp [hm]⟩
  · have hm : misread n = true := by simp [misread]; omega
    exact ⟨_, _, rfl, by decide, by rw [hm]; decide, fun _ => rfl⟩
  · have hm : misread n = false := by simp [misread]; omega
    exact ⟨_, _, rfl, by decide, by rw [hm]; decide, by simp [hm]⟩

theorem putSigned_code {i : Int} (o : Endian.Order) (hi : ¬ 0 ≤ i) :
    StartsWith (CodeOf false) (putSigned o i) := by
  unfold putSigned
  rw [if_neg hi]
  split_ifs with h1
  · have hcodes : ∀ k : Fin 32, CodeOf false (UInt8.ofNat (224 + k)) := by unfold CodeOf; decide
    have hpat : Endian.toUnsigned 1 i = 224 + (32 + i).toNat := by
      unfold Endian.toUnsigned
      omega
    refine ⟨_, _, rfl, ?_⟩
    rw [hpat]
    exact hcodes ⟨(32 + i).toNat, by omega⟩
  all_goals exact ⟨_, _, rfl, by decide, by decide⟩

theorem putInt_code {w : Width} {i : Int} (o : Endian.Order) (sg : Bool) :
    StartsWith (CodeOf (numbered (.int sg w i))) (putInt o sg i) := by
  have hnat : sg = false ∨ 0 ≤ i → putInt o sg i = putUnsigned o i.toNat := by
    rintro (rfl | hi)
    · rfl
    · simp [putInt, putSigned, hi]
  by_cases hi : sg = false ∨ 0 ≤ i
  · have hnum : numbered (.int sg w i) = !misread i.toNat := by
      rcases hi with rfl | hi
      · rfl
      · simp [numbered, hi]
    rw [hnat hi, hnum]
    exact (putUnsigned_code o).imp fun c hc => ⟨hc.1, hc.2.1⟩
  · obtain ⟨hsg, hneg⟩ := not_or.mp hi
    obtain rfl : sg = true := by simpa using hsg
    have hnum : numbered (.int true w i) = false := by simp [numbered, hneg]
    rw [hnum]
    exact putSigned_code o hneg

/-- The codes that no number starts with. -/
def OtherCode (c : UInt8) : Prop := CodeOf false c ∧ c ≠ Typecode.uint32

theorem putString_code {o : Endian.Order} {bs : List UInt8} {ts : List Chunk}
    (h : putString o bs = .ok ts) : StartsWith OtherCode ts := by
  simp only [putString] at h
  split_ifs at h with h1 h2 h3 h4
  · cases h
    have hcodes : ∀ k : Fin 32, (0xa0 ||| UInt8.ofNat k ≠ Typecode.nil ∧
        Typecode.isPositiveInt (0xa0 ||| UInt8.ofNat k) = false) ∧
        0xa0 ||| UInt8.ofNat k ≠ Typecode.uint32 := by decide
    exact ⟨_, _, rfl, hcodes ⟨bs.length, by omega⟩⟩
  all_goals
    cases h
    exact ⟨_, _, rfl, ⟨by decide, by decide⟩, by decide⟩

theorem writeBlobHeader_code (o : Endian.Order) (n : Nat) :
    StartsWith OtherCode (writeBlobHeader o n) := by
  simp only [writeBlobHeader]
  split_ifs <;> exact ⟨_, _, rfl, ⟨by decide, by decide⟩, by decide⟩

/-- Whether the value is streamed as a bare number. -/
def isNumber : Val → Bool
  | .int .. => true
  | _ => false

/-- Everything but a bare number starts with a code of its own. -/
theorem put_other {v : Val} (hv : isNumber v = false) {w w' : SavedTags} {ts : List Chunk}
    (h : C.put v w = .ok (ts, w')) : StartsWith OtherCode ts := by
  have harray : ∀ n us, StartsWith OtherCode (writeArrayHeader C.order n ++ us) :=
    fun n us => (writeArrayHeader_head C.order n).append us
  have htag : ∀ tag us, StartsWith OtherCode (C.writeTypeTag tag ++ us) := by
    intro tag us
    rw [writeTypeTag, List.append_assoc]
    exact harray 2 _
  cases v with
  | bool b =>
    cases h
    refine ⟨_, _, rfl, ?_⟩
    cases b <;> exact ⟨⟨by decide, by decide⟩, by decide⟩
  | int sg wd i => cases hv
  | float n => cases h; exact ⟨_, _, rfl, ⟨by decide, by decide⟩, by decide⟩
  | double n => cases h; exact ⟨_, _, rfl, ⟨by decide, by decide⟩, by decide⟩
  | string bs =>
    obtain ⟨us, hus, hts⟩ := Fallible.map_eq_ok.mp h
    cases hts
    exact putString_code hus
  | buffer bs => cases h; exact (writeBlobHeader_code C.order bs.length).append _
  | seq vs =>
    obtain ⟨us, -, hts⟩ := Fallible.map_eq_ok.mp h
    cases hts
    exact harray _ _
  | obj c parts =>
    obtain ⟨us, -, hts⟩ := Fallible.map_eq_ok.mp h
    cases hts
    exact harray _ _
  | null => cases h; exact htag _ _
  | own t v =>
    obtain ⟨us, -, hts⟩ := Fallible.map_eq_ok.mp h
    cases hts
    exact htag _ _
  | shared t a v =>
    simp only [put] at h
    split_ifs at h
    · split at h
      · cases h
        exact htag _ _
      · obtain ⟨us, -, hts⟩ := Fallible.map_eq_ok.mp h
        cases hts
        exact htag _ _
    · obtain ⟨us, -, hts⟩ := Fallible.map_eq_ok.mp h
      cases hts
      exact htag _ _

/-- The first code of an encoding is never that of nil, and it is that of a positive number exactly
for such numbers. -/
theorem put_code {v : Val} {w w' : SavedTags} {ts : List Chunk} (h : C.put v w = .ok (ts, w')) :
    StartsWith (CodeOf (numbered v)) ts := by
  cases hv : isNumber v with
  | false =>
    have hnum : numbered v = false := by
      cases v with
      | int sg wd i => cases hv
      | _ => rfl
    rw [hnum]
    exact (put_other hv h).imp fun c hc => hc.1
  | true =>
    cases v with
    | int sg wd i => cases h; exact putInt_code C.order sg
    | _ => cases hv

end Context

end Nodeoze.Bstream
