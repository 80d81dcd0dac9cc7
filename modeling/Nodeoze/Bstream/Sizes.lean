import Nodeoze.Bstream.Malformed

/-!
# Sizes of values

A size of `2 ^ 32` or more has no header.  `put` refuses a value exactly if there is such a string in
it, and `readAs` never returns a value with such a size anywhere, whatever the bytes are.
-/

namespace Nodeoze.Bstream

open Reader Endian Fallible

namespace Val

mutual

/-- No string, buffer or container in the value has `2 ^ 32` bytes or elements. -/
def Small : Val → Prop
  | .string bs => bs.length < 2 ^ 32
  | .buffer bs => bs.length < 2 ^ 32
  | .seq vs => vs.length < 2 ^ 32 ∧ SmallAll vs
  | .obj _ parts => SmallAll parts
  | .own _ v => Small v
  | .shared _ _ v => Small v
  | _ => True

def SmallAll : List Val → Prop
  | [] => True
  | v :: vs => Small v ∧ SmallAll vs

end

mutual

/-- A string in the value has `2 ^ 32` bytes or more. -/
def Overlong : Val → Prop
  | .string bs => 2 ^ 32 ≤ bs.length
  | .seq vs => OverlongAny vs
  | .obj _ parts => OverlongAny parts
  | .own _ v => Overlong v
  | .shared _ _ v => Overlong v
  | _ => False

def OverlongAny : List Val → Prop
  | [] => False
  | v :: vs => Overlong v ∨ OverlongAny vs

end

theorem smallAll_iff {vs : List Val} : SmallAll vs ↔ ∀ v ∈ vs, v.Small := by
  induction vs with
  | nil => simp [SmallAll]
  | cons v vs ih => simp [SmallAll, ih]

theorem overlongAny_iff {vs : List Val} : OverlongAny vs ↔ ∃ v ∈ vs, v.Overlong := by
  induction vs with
  | nil => simp [OverlongAny]
  | cons v vs ih => simp [OverlongAny, ih]

@[simp] theorem small_rename (f : Nat → Nat) (v : Val) : (v.rename f).Small ↔ v.Small := by
  induction v with
  | seq vs ih =>
    simp only [rename, renameList_eq_map, Small, List.length_map, smallAll_iff, List.forall_mem_map]
    exact and_congr_right fun _ => forall₂_congr ih
  | obj c parts ih =>
    simp only [rename, renameList_eq_map, Small, smallAll_iff, List.forall_mem_map]
    exact forall₂_congr ih
  | own t v ih => exact ih
  | shared t a v ih => exact ih
  | _ => exact Iff.rfl

/-- The sizes are part of the contents. -/
theorem small_of_erase_eq {v v' : Val} (h : v'.erase = v.erase) (hv : v'.Small) : v.Small := by
  have herase : v'.erase.Small := (small_rename _ v').mpr hv
  rw [h] at herase
  exact (small_rename _ v).mp herase

/-- A string in an object is in every value that points at the object. -/
theorem overlong_of_node {v : Val} {n : Nat × Val} (h : n ∈ v.nodes) (hn : n.2.Overlong) :
    v.Overlong := by
  have hall : ∀ vs : List Val, (∀ v ∈ vs, n ∈ v.nodes → v.Overlong) → n ∈ vs.flatMap nodes →
      OverlongAny vs := by
    intro vs ih h
    obtain ⟨v, hv, hmem⟩ := List.mem_flatMap.mp h
    exact overlongAny_iff.mpr ⟨v, hv, ih v hv hmem⟩
  induction v with
  | seq vs ih =>
    rw [nodes, nodesList_eq_flatMap] at h
    exact hall vs ih h
  | obj c parts ih =>
    rw [nodes, nodesList_eq_flatMap] at h
    exact hall parts ih h
  | own t v ih => exact ih h
  | shared t a v ih =>
    rcases List.mem_append.mp h with h | h
    · exact ih h
    · obtain rfl := List.mem_singleton.mp h
      exact hn
  | _ => cases h

end Val

/-! ### Values of every size -/

/-- `Typed C t v`: a variable of type `t` can hold the value `v`, and its shared objects are of class
type. -/
inductive Typed (C : Context) : Ty → Val → Prop
  | bool (b : Bool) : Typed C .bool (.bool b)
  | int {sg : Bool} {w : Width} {i : Int} : InRange sg w i → Typed C (.int sg w) (.int sg w i)
  | enum {u : Underlying} {v : Val} : HasUnderlying u v → Typed C (.enum u) v
  | float {n : Nat} : n < 2 ^ 32 → Typed C .float (.float n)
  | double {n : Nat} : n < 2 ^ 64 → Typed C .double (.double n)
  | string (bs : List UInt8) : Typed C .string (.string bs)
  | buffer (bs : List UInt8) : Typed C .buffer (.buffer bs)
  | pair {a b : Ty} {x y : Val} : Typed C a x → Typed C b y → Typed C (.pair a b) (.seq [x, y])
  | tuple {ts : List Ty} {vs : List Val} : vs.length = ts.length →
      (∀ (i : Nat) t v, ts[i]? = some t → vs[i]? = some v → Typed C t v) → Typed C (.tuple ts) (.seq vs)
  | seq {k : Sequence} {t : Ty} {vs : List Val} : (∀ v ∈ vs, Typed C t v) → Typed C (.seq k t) (.seq vs)
  | set {k : Assoc} {t : Ty} {vs : List Val} : (∀ v ∈ vs, Typed C t v) →
      vs.Pairwise (C.Precedes id k) → Typed C (.set k t) (.seq vs)
  | map {k : Assoc} {kt vt : Ty} {vs : List Val} : (∀ v ∈ vs, Typed C (.pair kt vt) v) →
      vs.Pairwise (C.Precedes Val.first k) → Typed C (.map k kt vt) (.seq vs)
  | cls {c : Nat} {vs : List Val} : vs.length = C.itemCount c →
      (∀ (i : Nat) t v, (C.parts c)[i]? = some t → vs[i]? = some v → Typed C t v) →
      Typed C (.cls c) (.obj c vs)
  | nullUnique (t : Ty) : Typed C (.uniquePtr t) .null
  | nullShared (t : Ty) : Typed C (.sharedPtr t) .null
  | own {t d : Ty} {v : Val} : C.Points t d → Typed C d v → Typed C (.uniquePtr t) (.own t v)
  | shared {h d a : Nat} {v : Val} : C.Points (.cls h) (.cls d) → a < 2 ^ 64 →
      Typed C (.cls d) v → Typed C (.sharedPtr (.cls h)) (.shared (.cls h) a v)

/-- The values of small sizes among them are those that round trip. -/
theorem Typed.hasTy {C : Context} {t : Ty} {v : Val} (h : Typed C t v) (hv : v.Small) : HasTy C t v := by
  induction h with
  | bool b => exact .bool b
  | int hi => exact .int hi
  | enum hu => exact .enum hu
  | float hn => exact .float hn
  | double hn => exact .double hn
  | string bs => exact .string hv
  | buffer bs => exact .buffer hv
  | pair _ _ iha ihb =>
    obtain ⟨-, hx, hy, -⟩ := hv
    exact .pair (iha hx) (ihb hy)
  | tuple hlen _ ih =>
    obtain ⟨hlt, hvs⟩ := hv
    refine .tuple (hlen ▸ hlt) hlen ?_
    intro i t v ht hget
    exact ih i t v ht hget (Val.smallAll_iff.mp hvs v (List.mem_of_getElem? hget))
  | seq _ ih => exact .seq hv.1 fun v hmem => ih v hmem (Val.smallAll_iff.mp hv.2 v hmem)
  | set _ hp ih => exact .set hv.1 (fun v hmem => ih v hmem (Val.smallAll_iff.mp hv.2 v hmem)) hp
  | map _ hp ih => exact .map hv.1 (fun v hmem => ih v hmem (Val.smallAll_iff.mp hv.2 v hmem)) hp
  | cls hlen _ ih =>
    refine .cls hlen ?_
    intro i t v ht hget
    exact ih i t v ht hget (Val.smallAll_iff.mp hv v (List.mem_of_getElem? hget))
  | nullUnique t => exact .nullUnique t
  | nullShared t => exact .nullShared t
  | own hp _ ih => exact .own hp (ih hv)
  | shared hp ha _ ih => exact .shared hp ha (ih hv)

/-! ### Refused values -/

theorem putString_ok {o : Order} {bs : List UInt8} (h : bs.length < 2 ^ 32) :
    ∃ ts, putString o bs = .ok ts :=
  (reads_getString o h ()).imp fun _ hread => hread.1

theorem putString_refused {o : Order} {bs : List UInt8} (h : 2 ^ 32 ≤ bs.length) :
    putString o bs = .error .typeError := by
  simp only [putString]
  rw [if_neg (by omega), if_neg (by omega), if_neg (by omega), if_neg (by omega)]

namespace Context

variable {C : Context}

/-- A value without such strings is never refused. -/
theorem put_ok {v : Val} (hv : ¬ v.Overlong) : ∀ w, ∃ ts w', C.put v w = .ok (ts, w') := by
  have hall : ∀ vs : List Val, (∀ v ∈ vs, ∀ w, ∃ ts w', C.put v w = .ok (ts, w')) →
      ∀ w, ∃ ts w', C.putAll vs w = .ok (ts, w') := by
    intro vs
    induction vs with
    | nil => exact fun _ w => ⟨[], w, rfl⟩
    | cons v vs ih =>
      intro h w
      obtain ⟨hv, hvs⟩ := List.forall_mem_cons.mp h
      obtain ⟨ts, w₁, h1⟩ := hv w
      obtain ⟨us, w₂, h2⟩ := ih hvs w₁
      exact ⟨ts ++ us, w₂, by simp [putAll, h1, h2, Except.bind, Except.map]⟩
  induction v with
  | string bs =>
    intro w
    obtain ⟨ts, hts⟩ := putString_ok (o := C.order) (Nat.not_le.mp hv)
    exact ⟨ts, w, by rw [put, hts]; rfl⟩
  | seq vs ih =>
    intro w
    obtain ⟨ts, w', h⟩ := hall vs (fun v hmem => ih v hmem fun hlong =>
      hv (Val.overlongAny_iff.mpr ⟨v, hmem, hlong⟩)) w
    exact ⟨_, w', by rw [put, h]; rfl⟩
  | obj c parts ih =>
    intro w
    obtain ⟨ts, w', h⟩ := hall parts (fun v hmem => ih v hmem fun hlong =>
      hv (Val.overlongAny_iff.mpr ⟨v, hmem, hlong⟩)) w
    exact ⟨_, w', by rw [put, h]; rfl⟩
  | own t v ih =>
    intro w
    obtain ⟨ts, w', h⟩ := ih hv w
    exact ⟨_, w', by rw [put, h]; rfl⟩
  | shared t a v ih =>
    intro w
    obtain ⟨ts, w', h⟩ := ih hv w
    simp only [put, h]
    split_ifs
    · split <;> exact ⟨_, _, rfl⟩
    · exact ⟨_, _, rfl⟩
  | _ => exact fun w => ⟨_, w, rfl⟩

/-- The addresses of the saved pointers. -/
def savedAddrs (w : SavedTags) : List Nat := w.ptrs.map fun e => e.1.1

theorem mem_savedAddrs_of_find {w : SavedTags} {ptr : Nat × Nat} {e : Int × Nat}
    (h : w.find ptr = some e) : ptr.1 ∈ savedAddrs w := by
  unfold SavedTags.find at h
  obtain ⟨p, hp, hkey⟩ := List.lookup_isSome_iff.mp (by rw [h]; rfl)
  refine List.mem_map.mpr ⟨p, hp, ?_⟩
  rw [← eq_of_beq hkey]

theorem mem_savedAddrs_save {w : SavedTags} {ptr : Nat × Nat} {tag : Int} {b : Nat}
    (h : b ∈ savedAddrs (w.save ptr tag)) : b ∈ savedAddrs w ∨ b = ptr.1 := by
  unfold savedAddrs SavedTags.save at h
  split_ifs at h
  · exact .inl h
  · simpa [savedAddrs] using h

/-- The objects of `ns` that are saved have no such string. -/
def SavedShort (w : SavedTags) (ns : List (Nat × Val)) : Prop :=
  ∀ n ∈ ns, n.1 ∈ savedAddrs w → ¬ n.2.Overlong

/-- What is written has no such string, and what is saved then was saved before or is in it. -/
def Writes (w w' : SavedTags) (ns : List (Nat × Val)) (overlong : Prop) : Prop :=
  ¬ overlong ∧ ∀ b ∈ savedAddrs w', b ∈ savedAddrs w ∨ ∃ n ∈ ns, n.1 = b

theorem writesAll {heap : Nat → Val} {vs : List Val}
    (h : ∀ v ∈ vs, v.Coherent heap → ∀ w ts w', SavedShort w v.nodes → C.put v w = .ok (ts, w') →
      Writes w w' v.nodes v.Overlong) (hco : ∀ v ∈ vs, v.Coherent heap) :
    ∀ w ts w', SavedShort w (vs.flatMap Val.nodes) → C.putAll vs w = .ok (ts, w') →
      Writes w w' (vs.flatMap Val.nodes) (Val.OverlongAny vs) := by
  induction vs with
  | nil =>
    intro w ts w' _ hput
    obtain ⟨-, rfl⟩ := Prod.mk.inj (Except.ok.inj hput)
    exact ⟨id, fun b hb => .inl hb⟩
  | cons v vs ih =>
    intro w ts w' hshort hput
    obtain ⟨hv, hvs⟩ := List.forall_mem_cons.mp h
    obtain ⟨hcv, hcvs⟩ := List.forall_mem_cons.mp hco
    rw [List.flatMap_cons] at hshort ⊢
    obtain ⟨⟨us, w₁⟩, hfirst, hput⟩ := bind_eq_ok.mp hput
    obtain ⟨⟨us', w₂⟩, hrest, hput⟩ := map_eq_ok.mp hput
    obtain ⟨-, rfl⟩ := Prod.mk.inj hput
    obtain ⟨hlong, hsaved⟩ := hv hcv w us w₁ (fun n hn => hshort n (List.mem_append_left _ hn)) hfirst
    have hnext : SavedShort w₁ (vs.flatMap Val.nodes) := by
      intro n hn hmem
      rcases hsaved n.1 hmem with hmem | ⟨m, hm, hmn⟩
      · exact hshort n (List.mem_append_right _ hn) hmem
      · -- the object was written with the first value
        have hsame : m.2 = n.2 := by
          obtain ⟨u, hu, hn⟩ := List.mem_flatMap.mp hn
          rw [← hcv m hm, ← hcvs u hu n hn, hmn]
        exact fun hn => hlong (Val.overlong_of_node hm (hsame ▸ hn))
    obtain ⟨hlongs, hsaveds⟩ := ih hvs hcvs w₁ us' w₂ hnext hrest
    refine ⟨fun hor => hor.elim hlong hlongs, ?_⟩
    intro b hb
    rcases hsaveds b hb with hb | ⟨n, hn, hnb⟩
    · rcases hsaved b hb with hb | ⟨n, hn, hnb⟩
      · exact .inl hb
      · exact .inr ⟨n, List.mem_append_left _ hn, hnb⟩
    · exact .inr ⟨n, List.mem_append_right _ hn, hnb⟩

theorem writes {heap : Nat → Val} (v : Val) : v.Coherent heap → ∀ w ts w', SavedShort w v.nodes →
    C.put v w = .ok (ts, w') → Writes w w' v.nodes v.Overlong := by
  induction v with
  | string bs =>
    intro _ w ts w' _ hput
    obtain ⟨us, hus, hput⟩ := map_eq_ok.mp hput
    obtain ⟨-, rfl⟩ := Prod.mk.inj hput
    refine ⟨?_, fun b hb => .inl hb⟩
    intro hlong
    rw [putString_refused hlong] at hus
    cases hus
  | seq vs ih =>
    intro hco w ts w' hshort hput
    rw [Val.nodes, Val.nodesList_eq_flatMap] at hshort ⊢
    obtain ⟨⟨us, w₁⟩, hall, hput⟩ := map_eq_ok.mp hput
    obtain ⟨-, rfl⟩ := Prod.mk.inj hput
    rw [Val.Coherent, Val.nodes, Val.nodesList_eq_flatMap] at hco
    exact writesAll ih (coherent_of_mem hco) w us w₁ hshort hall
  | obj c parts ih =>
    intro hco w ts w' hshort hput
    rw [Val.nodes, Val.nodesList_eq_flatMap] at hshort ⊢
    obtain ⟨⟨us, w₁⟩, hall, hput⟩ := map_eq_ok.mp hput
    obtain ⟨-, rfl⟩ := Prod.mk.inj hput
    rw [Val.Coherent, Val.nodes, Val.nodesList_eq_flatMap] at hco
    exact writesAll ih (coherent_of_mem hco) w us w₁ hshort hall
  | own t v ih =>
    intro hco w ts w' hshort hput
    obtain ⟨⟨us, w₁⟩, hown, hput⟩ := map_eq_ok.mp hput
    obtain ⟨-, rfl⟩ := Prod.mk.inj hput
    exact ih hco w us w₁ hshort hown
  | shared t a v ih =>
    intro hco w ts w' hshort hput
    have hcv : v.Coherent heap := fun n hn => hco n (List.mem_append_left _ hn)
    have hbelow := ih hcv
    have hinner : SavedShort w v.nodes := fun n hn => hshort n (List.mem_append_left _ hn)
    simp only [put] at hput
    have hnew : ∀ us w₁ w₂, C.put v w = .ok (us, w₁) →
        (∀ b ∈ savedAddrs w₂, b ∈ savedAddrs w₁ ∨ b = a) →
        Writes w w₂ (Val.shared t a v).nodes (Val.shared t a v).Overlong := by
      intro us w₁ w₂ hobject hadded
      obtain ⟨hlong, hsaved⟩ := hbelow w us w₁ hinner hobject
      refine ⟨hlong, ?_⟩
      intro b hb
      rcases hadded b hb with hb | rfl
      · rcases hsaved b hb with hold | ⟨n, hn, hnb⟩
        · exact .inl hold
        · exact .inr ⟨n, List.mem_append_left _ hn, hnb⟩
      · exact .inr ⟨(b, v), List.mem_append_right _ (List.mem_singleton.mpr rfl), rfl⟩
    split_ifs at hput
    · cases hfind : w.find (a, C.subobject t v) with
      | some e =>
        -- the object is saved already, and only its number is written
        rw [hfind] at hput
        obtain ⟨-, rfl⟩ := Prod.mk.inj (Except.ok.inj hput)
        refine ⟨?_, fun b hb => .inl hb⟩
        exact hshort (a, v) (List.mem_append_right _ (List.mem_singleton.mpr rfl))
          (mem_savedAddrs_of_find hfind)
      | none =>
        rw [hfind] at hput
        obtain ⟨⟨us, w₁⟩, hobject, hput⟩ := map_eq_ok.mp hput
        obtain ⟨-, rfl⟩ := Prod.mk.inj hput
        exact hnew us w₁ _ hobject fun b hb => mem_savedAddrs_save hb
    · obtain ⟨⟨us, w₁⟩, hobject, hput⟩ := map_eq_ok.mp hput
      obtain ⟨-, rfl⟩ := Prod.mk.inj hput
      exact hnew us w₁ _ hobject fun b hb => .inl hb
  | _ =>
    intro _ w ts w' _ hput
    obtain ⟨-, rfl⟩ := Prod.mk.inj (Except.ok.inj hput)
    exact ⟨id, fun b hb => .inl hb⟩

/-- On a fresh stream exactly the values with such a string are refused. -/
theorem put_refuses_iff {heap : Nat → Val} {v : Val} (hco : v.Coherent heap) :
    (∃ e, C.put v {} = .error e) ↔ v.Overlong := by
  constructor
  · rintro ⟨e, he⟩
    by_contra hlong
    obtain ⟨ts, w', hput⟩ := put_ok hlong {}
    rw [he] at hput
    cases hput
  · intro hlong
    cases hput : C.put v {} with
    | error e => exact ⟨e, rfl⟩
    | ok x =>
      have hfresh : SavedShort {} v.nodes := fun _ _ h => nomatch h
      exact absurd hlong (writes v hco {} x.1 x.2 hfresh hput).1

end Context

/-! ### What a reader can return -/

section Lengths

variable {σ : Type} {I : σ → Prop} (o : Order)

theorem ensures_get : Ensures I (get eof : Istream σ UInt8) fun _ => True := leaf_get.ensures I

theorem code_small (c : UInt8) : c.toNat < 2 ^ 32 := c.toNat_lt.trans (by decide)

theorem ensures_number {w : Nat} (hw : w ≤ 4) : Ensures I (getNum o w : Istream σ Nat) (· < 2 ^ 32) := by
  refine .ite (ensures_get.wrap UInt8.toNat fun b _ => code_small b) ?_
  refine (Ensures.getNum o w).imp fun n hn => ?_
  have hpow : 256 ^ w ≤ 256 ^ 4 := Nat.pow_le_pow_right (by decide) hw
  omega

theorem ensures_readArrayHeader : Ensures I (readArrayHeader o : Istream σ Nat) (· < 2 ^ 32) := by
  refine ensures_get.bind fun c _ => .ite (.pure (code_small _)) ?_
  exact .ite (ensures_number o (by decide)) (.ite (ensures_number o (by decide)) (.throw _))

theorem ensures_readMapHeader : Ensures I (readMapHeader o : Istream σ Nat) (· < 2 ^ 32) := by
  refine ensures_get.bind fun c _ => .ite (.pure (code_small _)) ?_
  exact .ite (ensures_number o (by decide)) (.ite (ensures_number o (by decide)) (.throw _))

theorem ensures_readBlobHeader : Ensures I (readBlobHeader o : Istream σ Nat) (· < 2 ^ 32) := by
  refine ensures_get.bind fun c _ => .ite (ensures_number o (by decide)) ?_
  exact .ite (ensures_number o (by decide)) (.ite (ensures_number o (by decide)) (.throw _))

theorem ensures_getn {n : Nat} (hn : n < 2 ^ 32) :
    Ensures I (getn eof n : Istream σ (List UInt8)) (·.length < 2 ^ 32) :=
  (Ensures.getn eof n).imp fun _ hbs => hbs.trans_lt hn

theorem ensures_readBlob : Ensures I (readBlob o : Istream σ (List UInt8)) (·.length < 2 ^ 32) :=
  (ensures_readBlobHeader o).bind fun _ hn => ensures_getn hn

theorem ensures_getString : Ensures I (getString o : Istream σ (List UInt8)) (·.length < 2 ^ 32) := by
  have hnum : ∀ w, w ≤ 4 → Ensures I (do let n ← getNum o w; getn eof n : Istream σ (List UInt8))
      (·.length < 2 ^ 32) := fun w hw => (ensures_number o hw).bind fun _ hn => ensures_getn hn
  refine ensures_get.bind fun c _ => .ite (ensures_getn (code_small _)) ?_
  exact .ite (hnum 1 (by decide)) (.ite (hnum 2 (by decide)) (.ite (hnum 4 (by decide)) (.throw _)))

end Lengths

section

variable {C : Context} {rec : Ty → Read Val}

/-- The saved objects are small. -/
def SavedSmall (s : SavedPtrs) : Prop := ∀ e ∈ s.saved, e.2.2.Small

/-- What the reader returns and what it saves is small. -/
abbrev EnsuresSmall (p : Read Val) : Prop := Ensures SavedSmall p Val.Small

theorem small_savedPtr {t savedTy : Ty} {a : Nat} {v : Val} (h : v.Small) :
    (Context.savedPtr t savedTy a v).Small := by
  unfold Context.savedPtr
  split_ifs
  · trivial
  · exact h

theorem ensures_tag : Ensures SavedSmall C.readTypeTag fun _ => True := by
  refine (ensures_readArrayHeader C.order).bind fun n _ => .ite ?_ (.throw _)
  exact (leaf_getInt C.order true .w32).ensures SavedSmall

theorem ensures_check (expected : Nat) :
    Ensures SavedSmall (checkArrayHeader C.order expected) fun _ => expected < 2 ^ 32 := by
  refine (ensures_readArrayHeader C.order).bind fun actual hlt => ?_
  by_cases h : actual = expected
  · rw [if_pos h]
    exact .pure (h ▸ hlt)
  · rw [if_neg h]
    exact .throw _

theorem ensures_null : EnsuresSmall (do let _ ← get eof; pure .null : Read Val) :=
  ensures_get.bind fun _ _ => .pure trivial

theorem ensures_pointee (hrec : ∀ t, EnsuresSmall (rec t)) (t : Ty) (tag : Int) :
    Ensures SavedSmall (C.deserializePointee rec t tag) fun object => ∀ v ∈ object, v.Small := by
  have hsome : ∀ v : Val, v.Small → ∀ u ∈ some v, u.Small := by
    rintro v hv u ⟨⟩
    exact hv
  refine .ite (.ite (.throw _) ((hrec t).wrap some hsome)) ?_
  unfold Context.create
  split
  · refine .ite (.ite (.pure fun _ h => nomatch h) ?_) (.throw _)
    exact (hrec _).bind fun v hv => .ite (.pure (hsome v hv)) (.throw _)
  · exact .throw _

theorem ensures_unique (hrec : ∀ t, EnsuresSmall (rec t)) (t : Ty) :
    EnsuresSmall (C.readAsUniquePtr rec t) := by
  refine ensures_tag.bind fun tag _ => (Ensures.peek eof).bind fun code _ => .ite ensures_null ?_
  refine (ensures_pointee hrec t tag).bind fun object hobject => ?_
  cases object with
  | none => exact .pure trivial
  | some v => exact .pure (hobject v rfl)

theorem ensures_saved (t : Ty) (tag : Int) : EnsuresSmall (C.getSavedPtr t tag) := by
  refine .ite (((leaf_getInt C.order false .w64).ensures SavedSmall).bind fun index _ =>
    Ensures.getUser.bind fun s hs => ?_) (.throw _)
  split
  · exact .throw _
  · next savedTy a v hget =>
    have hv : v.Small := hs _ (List.mem_of_getElem? hget)
    refine .ite (.ite ?_ (.throw _)) (.ite (.pure (small_savedPtr hv)) (.throw _))
    split
    · exact .ite (.ite (.pure (small_savedPtr hv)) (.throw _)) (.throw _)
    · exact .throw _

theorem ensures_new (hrec : ∀ t, EnsuresSmall (rec t)) (t : Ty) (tag : Int) :
    EnsuresSmall (C.deserializeAsSharedPtr rec t tag) := by
  have hsaved : ∀ {s : SavedPtrs} {e : Ty × Nat × Val}, SavedSmall s → e.2.2.Small →
      ∀ e' ∈ s.saved ++ [e], e'.2.2.Small := by
    intro s e hs he e' hmem
    rcases List.mem_append.mp hmem with hmem | hmem
    · exact hs e' hmem
    · obtain rfl := List.mem_singleton.mp hmem
      exact he
  refine (ensures_pointee hrec t tag).bind fun object hobject => Ensures.getUser.bind fun s hs => ?_
  cases object with
  | none =>
    refine .ite (.ite (.throw _) ?_) (.pure trivial)
    exact (Ensures.setUser (hsaved (e := (t, s.next, .null)) hs trivial)).bind fun _ _ => .pure trivial
  | some v =>
    have hv : v.Small := hobject v rfl
    refine (Ensures.setUser ?_).bind fun _ _ => .pure hv
    simp only [SavedSmall, Context.allocate]
    split_ifs
    · exact hsaved hs hv
    · exact hs

theorem ensures_shared (hrec : ∀ t, EnsuresSmall (rec t)) (t : Ty) :
    EnsuresSmall (C.readAsSharedPtr rec t) := by
  refine ensures_tag.bind fun tag _ => (Ensures.peek eof).bind fun code _ => .ite ensures_null ?_
  exact .ite (ensures_saved t tag) (ensures_new hrec t tag)

theorem insertUnique_length_le {α : Type} {lt : α → α → Bool} (x : α) (l : List α) :
    (insertUnique lt x l).length ≤ l.length + 1 := by
  induction l with
  | nil => exact le_rfl
  | cons y ys ih =>
    rw [insertUnique]
    split_ifs
    · simp
    · simpa using ih
    · simp

theorem mem_insertUnique {α : Type} {lt : α → α → Bool} {x y : α} {l : List α}
    (h : y ∈ insertUnique lt x l) : y = x ∨ y ∈ l := by
  induction l with
  | nil => exact List.mem_cons.mp h
  | cons z zs ih =>
    rw [insertUnique] at h
    split_ifs at h
    · exact List.mem_cons.mp h
    · rcases List.mem_cons.mp h with rfl | h
      · exact .inr List.mem_cons_self
      · exact (ih h).imp id (List.mem_cons_of_mem z)
    · exact .inr h

/-- An insertion adds no element but the new one, and that at most once. -/
structure Inserts (add : Val → List Val → List Val) : Prop where
  length_le : ∀ v l, (add v l).length ≤ l.length + 1
  mem : ∀ v l, ∀ u ∈ add v l, u = v ∨ u ∈ l

theorem inserts_concat : Inserts fun v acc => acc ++ [v] where
  length_le := fun v l => by simp
  mem := fun v l u hu => by simpa [or_comm] using hu

theorem inserts_emplace (key : Val → Val) (k : Assoc) : Inserts (C.emplace key k) where
  length_le := by
    intro v l
    cases k with
    | ordered i => exact insertUnique_length_le v l
    | orderedMulti i => exact (List.orderedInsert_length _ l v).le
    | unordered i =>
      rw [Program.emplace]
      split_ifs <;> simp
    | unorderedMulti => exact inserts_concat.length_le v l
  mem := by
    intro v l u hu
    cases k with
    | ordered i => exact mem_insertUnique hu
    | orderedMulti i => exact (List.mem_orderedInsert _).mp hu
    | unordered i =>
      rw [Program.emplace] at hu
      split_ifs at hu
      · exact .inr hu
      · exact inserts_concat.mem v l u hu
    | unorderedMulti => exact inserts_concat.mem v l u hu

theorem ensures_container {add : Val → List Val → List Val} (hadd : Inserts add)
    (hrec : ∀ t, EnsuresSmall (rec t)) (t : Ty) : EnsuresSmall (C.readContainer rec add t) := by
  have hstep : ∀ (i : Nat) (acc : List Val), (acc.length ≤ i ∧ ∀ v ∈ acc, v.Small) →
      Ensures SavedSmall (do let v ← rec t; pure (add v acc))
        fun l => l.length ≤ i + 1 ∧ ∀ v ∈ l, v.Small := by
    rintro i acc ⟨hlen, hacc⟩
    refine (hrec t).wrap (fun v => add v acc) fun v hv => ⟨?_, ?_⟩
    · exact (hadd.length_le v acc).trans (Nat.succ_le_succ hlen)
    · intro u hu
      rcases hadd.mem v acc u hu with rfl | hu
      · exact hv
      · exact hacc u hu
  refine (ensures_readArrayHeader C.order).bind fun length hlength => ?_
  refine (Ensures.loop hstep length 0 [] ⟨le_rfl, fun _ h => nomatch h⟩).wrap Val.seq ?_
  rintro vs ⟨hlen, hvs⟩
  exact ⟨by omega, Val.smallAll_iff.mpr hvs⟩

theorem ensures_each {ps : List (Read Val)} (h : ∀ p ∈ ps, EnsuresSmall p) :
    Ensures SavedSmall (each ps) fun vs => vs.length = ps.length ∧ Val.SmallAll vs :=
  (Ensures.each h).imp fun _ hvs => ⟨hvs.1, Val.smallAll_iff.mpr hvs.2⟩

/-- Whatever the bytes are, no size of what is read reaches `2 ^ 32`. -/
theorem ensures_readAs (fuel : Nat) (t : Ty) : EnsuresSmall (C.readAs fuel t) := by
  induction fuel generalizing t with
  | zero => exact .throw _
  | succ fuel ih =>
    have hleaf : ∀ {α : Type} {p : ∀ σ : Type, Istream σ α} (_ : IsLeaf p) (f : α → Val),
        (∀ a, (f a).Small) → EnsuresSmall (do let a ← p SavedPtrs; pure (f a)) :=
      fun h f hf => (h.ensures SavedSmall).wrap f fun a _ => hf a
    cases t with
    | bool => exact hleaf leaf_getBool _ fun _ => trivial
    | int sg w => exact hleaf (leaf_getInt C.order sg w) _ fun _ => trivial
    | enum u =>
      cases u with
      | bool => exact hleaf leaf_getBool _ fun _ => trivial
      | int sg w => exact hleaf (leaf_getInt C.order sg w) _ fun _ => trivial
    | float => exact hleaf (leaf_getFloat C.order) _ fun _ => trivial
    | double => exact hleaf (leaf_getDouble C.order C.widen) _ fun _ => trivial
    | string => exact (ensures_getString C.order).wrap Val.string fun _ h => h
    | buffer => exact (ensures_readBlob C.order).wrap Val.buffer fun _ h => h
    | pair a b =>
      refine Ensures.bind (ensures_check 2) fun _ _ => (ih a).bind fun x hx => ?_
      exact (ih b).wrap (fun y => Val.seq [x, y]) fun y hy => ⟨by simp, hx, hy, trivial⟩
    | tuple ts =>
      refine Ensures.bind (ensures_check ts.length) fun _ hlt => ?_
      refine (ensures_each (List.forall_mem_map.mpr fun t _ => ih t)).wrap Val.seq ?_
      rintro vs ⟨hlen, hvs⟩
      exact ⟨by rwa [hlen, List.length_map], hvs⟩
    | seq k t => exact ensures_container inserts_concat ih t
    | set k t => exact ensures_container (inserts_emplace id k) ih t
    | map k kt vt => exact ensures_container (inserts_emplace Val.first k) ih (.pair kt vt)
    | cls c =>
      refine (ensures_readArrayHeader C.order).bind fun length _ => .ite ?_ (.throw _)
      exact (ensures_each (List.forall_mem_map.mpr fun t _ => ih t)).wrap (Val.obj c) fun _ h => h.2
    | uniquePtr t => exact ensures_unique ih t
    | sharedPtr t => exact ensures_shared ih t

end

end Nodeoze.Bstream
