import Nodeoze.Bstream.Pointers

/-!
# The whole format

Every well-typed value round trips in the sense of `RoundTrips`: `roundTrips` is the induction
over the typing, one constructor of `Ty` at a time.  The results about streams follow: which
values come back unchanged, which graphs come back isomorphic, and at which cuts a truncated
encoding is noticed.
-/

namespace Nodeoze.Bstream

open Reader

namespace Context

variable {C : Context}

theorem erase_first (v : Val) : v.erase.first = v.first.erase := Val.first_rename _ v

theorem each_pair (p q : Read Val) :
    (do let x ← p; let y ← q; pure (Val.seq [x, y])) = (do let us ← each [p, q]; pure (.seq us)) := by
  simp only [each, bind_assoc, pure_bind]

theorem roundTrips_underlying {heap : Nat → Val} {u : Underlying} {v : Val}
    (h : HasUnderlying u v) : C.RoundTrips heap (readUnderlying C.order u) v := by
  cases h with
  | bool b => exact .bool fun s => Reads.then_pure Val.bool (reads_getBool b s)
  | @int sg w i hi => exact .int fun s => Reads.then_pure (Val.int sg w) (reads_getInt C.order hi s)

/-- Every well-typed value round trips, given fuel for its depth. -/
theorem roundTrips {t : Ty} {v : Val} (h : HasTy C t v) (heap : Nat → Val) :
    ∀ fuel, v.depth ≤ fuel → C.RoundTrips heap (C.readAs fuel t) v := by
  induction h with
  | bool b =>
    rintro (_ | fuel) hf
    · simp [Val.depth] at hf
    · exact .bool fun s => Reads.then_pure Val.bool (reads_getBool b s)
  | @int sg w i hi =>
    rintro (_ | fuel) hf
    · simp [Val.depth] at hf
    · exact .int fun s => Reads.then_pure (Val.int sg w) (reads_getInt C.order hi s)
  | @enum u v hu =>
    rintro (_ | fuel) hf
    · cases hu <;> simp [Val.depth] at hf
    · exact roundTrips_underlying hu
  | @float n hn =>
    rintro (_ | fuel) hf
    · simp [Val.depth] at hf
    · exact .scalar (fun _ => rfl) (fun s => Reads.then_pure Val.float (reads_getFloat C.order hn s))
        rfl (fun _ => rfl) (good_of_aligned rfl fun _ => rfl)
  | @double n hn =>
    rintro (_ | fuel) hf
    · simp [Val.depth] at hf
    · exact .scalar (fun _ => rfl)
        (fun s => Reads.then_pure Val.double (reads_getDouble C.widen C.order hn s))
        rfl (fun _ => rfl) (good_of_aligned rfl fun _ => rfl)
  | @string bs hn =>
    rintro (_ | fuel) hf
    · simp [Val.depth] at hf
    · obtain ⟨ts, hput, -⟩ := reads_getString C.order hn (σ := SavedPtrs) {}
      have hw : ∀ w, C.put (.string bs) w = .ok (ts, w) := by simp [put, hput, Except.map]
      refine .scalar hw ?_ rfl (fun _ => rfl) (good_of_aligned rfl fun _ => rfl)
      intro s
      obtain ⟨us, hput', hread⟩ := reads_getString C.order hn s
      rw [hput] at hput'
      cases hput'
      exact Reads.then_pure Val.string hread
  | @buffer bs hn =>
    rintro (_ | fuel) hf
    · simp [Val.depth] at hf
    · exact .scalar (fun _ => rfl) (fun s => Reads.then_pure Val.buffer (reads_readBlob C.order hn s))
        rfl (fun _ => rfl) (good_of_aligned rfl fun _ => rfl)
  | @pair a b x y _ _ ihx ihy =>
    rintro (_ | fuel) hf
    · simp [Val.depth] at hf
    · simp only [Val.depth, Val.depthList] at hf
      have hall : C.RoundTripsAll heap [C.readAs fuel a, C.readAs fuel b] [x, y] :=
        .cons (ihx fuel (by omega)) (.cons (ihy fuel (by omega)) .nil)
      refine RoundTrips.node .seq hall ?_ (fun s => reads_checkArrayHeader C.order (by decide) s)
        (each_pair _ _) (fun _ _ => rfl)
      intro w ts w' hw
      simp [put, hw, Except.map]
  | @tuple ts vs hts hlen _ ih =>
    rintro (_ | fuel) hf
    · simp [Val.depth] at hf
    · simp only [Val.depth] at hf
      have hall : C.RoundTripsAll heap (ts.map (C.readAs fuel)) vs := by
        refine .of_forall hlen ?_
        intro i t v ht hv
        have := Val.depth_le_of_mem (List.mem_of_getElem? hv)
        exact ih i t v ht hv fuel (by omega)
      refine RoundTrips.node .seq hall ?_ (fun s => reads_checkArrayHeader C.order hts s) rfl
        (fun _ _ => rfl)
      intro w cs w' hw
      simp [put, hw, Except.map, hlen]
  | @seq k t vs hlen _ ih =>
    rintro (_ | fuel) hf
    · simp [Val.depth] at hf
    · simp only [Val.depth] at hf
      refine .container hlen ?_ ?_
      · intro v hv
        have := Val.depth_le_of_mem hv
        exact ih v hv fuel (by omega)
      · intro us _
        simpa using foldl_concat us []
  | @set k t vs hlen _ hsorted ih =>
    rintro (_ | fuel) hf
    · simp [Val.depth] at hf
    · simp only [Val.depth] at hf
      refine .container hlen ?_ ?_
      · intro v hv
        have := Val.depth_le_of_mem hv
        exact ih v hv fuel (by omega)
      · intro us hus
        exact foldl_emplace_of_erase (show ∀ v : Val, id v.erase = (id v).erase from fun _ => rfl)
          hsorted hus
  | @map k kt vt vs hlen _ hsorted ih =>
    rintro (_ | fuel) hf
    · simp [Val.depth] at hf
    · simp only [Val.depth] at hf
      refine .container hlen ?_ ?_
      · intro v hv
        have := Val.depth_le_of_mem hv
        exact ih v hv fuel (by omega)
      · intro us hus
        exact foldl_emplace_of_erase erase_first hsorted hus
  | @cls c vs hlen _ ih =>
    rintro (_ | fuel) hf
    · simp [Val.depth] at hf
    · simp only [Val.depth] at hf
      have hall : C.RoundTripsAll heap ((C.parts c).map (C.readAs fuel)) vs := by
        refine .of_forall (by simpa using hlen) ?_
        intro i t v ht hv
        have := Val.depth_le_of_mem (List.mem_of_getElem? hv)
        exact ih i t v ht hv fuel (by omega)
      refine RoundTrips.node (.obj c) hall ?_
        (fun s => reads_readArrayHeader C.order (C.count_lt c) s) (if_pos rfl) (fun _ _ => rfl)
      intro w cs w' hw
      simp [put, hw, Except.map, itemCount]
  | nullUnique t =>
    rintro (_ | fuel) hf
    · simp [Val.depth] at hf
    · exact .null fun s => reads_null s (if_pos rfl)
  | nullShared t =>
    rintro (_ | fuel) hf
    · simp [Val.depth] at hf
    · exact .null fun s => reads_null s (if_pos rfl)
  | @own t d v hpt hty ih =>
    rintro (_ | fuel) hf
    · simp [Val.depth] at hf
    · simp only [Val.depth] at hf
      exact .own hpt hty (ih fuel (by omega))
  | @shared h d a v hpt halt hty ih =>
    rintro (_ | fuel) hf
    · simp [Val.depth] at hf
    · simp only [Val.depth] at hf
      exact .shared hpt halt hty (ih fuel (by omega))

/-! ### Streams -/

/-- What a fresh reader makes of a byte string: the value and the reader's final state. -/
def readBytes (C : Context) (fuel : Nat) (t : Ty) (junk : Nat → Nat → UInt8) (bs : List UInt8) :
    Except Fault (Val × Input SavedPtrs) :=
  C.readAs fuel t junk ⟨0, bs, 0, {}⟩

/-- Reading the type of `v` from `bs`, whatever follows it, gives a value that satisfies `P` and
leaves the reader right behind `bs`. -/
def ReadsBack (C : Context) (fuel : Nat) (t : Ty) (bs : List UInt8) (P : Val → Prop) : Prop :=
  ∀ junk r, ∃ v' s', C.readBytes fuel t junk (bs ++ r) = .ok (v', ⟨bs.length, r, 0, s'⟩) ∧ P v'

/-- Two values are the same graph: the objects of one are those of the other moved to other,
still distinct, addresses. -/
def Isomorphic (v v' : Val) : Prop :=
  ∃ f : Nat → Nat, (∀ m ∈ v.nodes, ∀ n ∈ v.nodes, f m.1 = f n.1 → m.1 = n.1) ∧ v' = v.rename f

theorem readBytes_of_reads {fuel : Nat} {t : Ty} {ts : List Chunk} {v : Val} {s' : SavedPtrs}
    (h : Reads eof (C.readAs fuel t) {} ts v s') (junk : Nat → Nat → UInt8) (r : List UInt8) :
    C.readBytes fuel t junk (bytes ts ++ r) = .ok (v, ⟨(bytes ts).length, r, 0, s'⟩) := by
  simpa [readBytes] using h.full junk 0 r 0

theorem not_readsBack_of_fails {fuel : Nat} {t : Ty} {ts : List Chunk} {P : Val → Prop}
    (h : Fails (C.readAs fuel t) {} ts) : ¬ C.ReadsBack fuel t (bytes ts) P := by
  intro hrb
  obtain ⟨v', s', hok, -⟩ := hrb (fun _ _ => 0) []
  obtain ⟨e, he⟩ := h (fun _ _ => 0) 0 [] 0
  rw [readBytes, he] at hok
  cases hok

/-- A fresh stream: the value is copied if it is good, and the read fails if it is not. -/
theorem fresh {t : Ty} {v : Val} (h : HasTy C t v) {heap : Nat → Val} (hco : v.Coherent heap) :
    ∃ ts w', C.put v {} = .ok (ts, w') ∧ ∀ fuel, v.depth ≤ fuel →
      (C.Good v [] ∧ ∃ v' s', Reads eof (C.readAs fuel t) {} ts v' s' ∧
        C.Copies v v' (v.visit [])) ∨
      (¬ C.Good v [] ∧ Fails (C.readAs fuel t) {} ts) := by
  obtain ⟨ts, w', hput⟩ := (roundTrips h heap v.depth le_rfl).writes {}
  refine ⟨ts, w', hput, ?_⟩
  intro fuel hf
  rcases (roundTrips h heap fuel hf).reads hco [] {} {} ts w' (C.sync_init heap) hput with
    ⟨hg, v', s', hr, hcp, -⟩ | ⟨hg, hfail⟩
  · exact .inl ⟨hg, v', s', hr, hcp⟩
  · exact .inr ⟨hg, hfail⟩

mutual

theorem repeats_of_nodes_nil : ∀ {v : Val}, v.nodes = [] → ∀ seen, v.repeats seen = []
  | .seq vs, h, seen => repeatsAll_of_nodes_nil h seen
  | .obj _ parts, h, seen => repeatsAll_of_nodes_nil h seen
  | .own _ v, h, seen => repeats_of_nodes_nil (v := v) h seen
  | .shared _ _ _, h, _ => by simp [Val.nodes] at h
  | .bool _, _, _ => rfl
  | .int _ _ _, _, _ => rfl
  | .float _, _, _ => rfl
  | .double _, _, _ => rfl
  | .string _, _, _ => rfl
  | .buffer _, _, _ => rfl
  | .null, _, _ => rfl

theorem repeatsAll_of_nodes_nil : ∀ {vs : List Val}, Val.nodesList vs = [] →
    ∀ seen, Val.repeatsAll vs seen = []
  | [], _, _ => rfl
  | v :: vs, h, seen => by
    obtain ⟨h1, h2⟩ := List.append_eq_nil_iff.mp h
    rw [Val.repeatsAll, repeats_of_nodes_nil h1, repeatsAll_of_nodes_nil h2, List.append_nil]

end

theorem hasTy_obj {c : Nat} {vs : List Val} (h : List.Forall₂ (HasTy C) (C.parts c) vs) :
    HasTy C (.cls c) (.obj c vs) := by
  refine .cls (by rw [← h.length_eq, length_parts]) ?_
  intro i t v ht hv
  obtain ⟨hi, rfl⟩ := List.getElem?_eq_some_iff.mp ht
  obtain ⟨hj, rfl⟩ := List.getElem?_eq_some_iff.mp hv
  exact h.get hi hj

/-- A value without shared objects comes back unchanged, with the reader right behind it, exactly
if every pointer in it points at the start of its object. -/
theorem readsBack_iff_aligned {t : Ty} {v : Val} (h : HasTy C t v) (hfree : v.nodes = []) :
    ∃ ts w', C.put v {} = .ok (ts, w') ∧ ∀ fuel, v.depth ≤ fuel →
      (C.ReadsBack fuel t (bytes ts) (· = v) ↔ C.aligned v = true) := by
  have hco : v.Coherent fun _ => .null := by simp [Val.Coherent, hfree]
  obtain ⟨ts, w', hput, hread⟩ := fresh h hco
  have hgood : C.Good v [] ↔ C.aligned v = true := by
    simp [Good, repeats_of_nodes_nil hfree]
  refine ⟨ts, w', hput, ?_⟩
  intro fuel hf
  rcases hread fuel hf with ⟨hg, v', s', hr, hcp⟩ | ⟨hg, hfail⟩
  · refine ⟨fun _ => hgood.mp hg, ?_⟩
    intro _ junk r
    have heq : v' = v := Val.eq_of_erase_eq hcp.1 hfree
    exact ⟨v', s', readBytes_of_reads hr junk r, heq⟩
  · exact ⟨fun hrb => absurd hrb (not_readsBack_of_fails hfail), fun hal => absurd (hgood.mpr hal) hg⟩

/-- Three classes: `2` derives from the polymorphic classes `0` and `1` and has a string member.
The subobject of class `1` lies behind that of class `0`. -/
def twoBases (dedup : Bool) : Context where
  bases c := if c = 2 then [0, 1] else []
  members c := if c = 2 then [.string] else [.int true .w32]
  isAbstract _ := false
  isPolymorphic _ := true
  isBaseOf b d := b == d || (d == 2 && (b == 0 || b == 1))
  offset d b := if d = 2 ∧ b = 1 then 16 else 0
  less _ _ _ := false
  equal _ _ _ := false
  widen n := n
  isBaseOf_self := by simp
  offset_self := by intro c; split_ifs <;> omega
  count_lt := by intro c; split_ifs <;> decide
  less_asymm := Program.compareNone_asymm
  less_erase := Program.compareNone_erase
  equal_erase := Program.compareNone_erase
  types := [0, 1, 2]
  dedupSharedPtrs := dedup
  order := .big
  types_lt := by decide

/-- An object of the derived class. -/
def derived : Val :=
  .obj 2 [.obj 0 [.int true .w32 7], .obj 1 [.int true .w32 300], .string [0x68, 0x69]]

theorem hasTy_derived (dedup : Bool) : HasTy (twoBases dedup) (.cls 2) derived := by
  refine hasTy_obj (.cons (hasTy_obj ?_) (.cons (hasTy_obj ?_) (.cons (.string (by decide)) .nil)))
  · exact .cons (.int (by decide)) .nil
  · exact .cons (.int (by decide)) .nil

theorem points_derived (dedup : Bool) {h : Nat} (hh : h ∈ [0, 1, 2]) :
    (twoBases dedup).Points (.cls h) (.cls 2) := by
  refine .registered hh (by simp [twoBases]) ?_ rfl (.inr rfl)
  simp only [List.mem_cons, List.not_mem_nil, or_false] at hh
  rcases hh with rfl | rfl | rfl <;> rfl

/-- Through its first base the derived object comes back. -/
theorem first_base_pointer_back :
    ∃ ts w', (twoBases true).put (.own (.cls 0) derived) {} = .ok (ts, w') ∧
      (twoBases true).ReadsBack 4 (.uniquePtr (.cls 0)) (bytes ts) (· = .own (.cls 0) derived) := by
  have hty := HasTy.own (points_derived true (h := 0) (by simp)) (hasTy_derived true)
  obtain ⟨ts, w', hput, hread⟩ := readsBack_iff_aligned hty (by decide)
  exact ⟨ts, w', hput, (hread 4 (by decide)).mpr (by decide)⟩

/-- The fault with which a call ended, if it did. -/
def faultOf {α : Type} : Except Fault α → Option Fault
  | .ok _ => none
  | .error e => some e

/-- Through its second base it does not: the pointer that is handed out is not one to an object of
that class. -/
theorem second_base_pointer_lost :
    HasTy (twoBases true) (.uniquePtr (.cls 1)) (.own (.cls 1) derived) ∧
    Val.nodes (.own (.cls 1) derived) = [] ∧
    (∃ ts w', (twoBases true).put (.own (.cls 1) derived) {} = .ok (ts, w') ∧
      bytes ts = [0x92, 0x02, 0x93, 0x91, 0x07, 0x91, 0xcd, 0x01, 0x2c, 0xa2, 0x68, 0x69] ∧
      ¬ (twoBases true).ReadsBack 4 (.uniquePtr (.cls 1)) (bytes ts) (· = .own (.cls 1) derived)) ∧
    faultOf ((twoBases true).readBytes 4 (.uniquePtr (.cls 1)) (fun _ _ => 0)
      [0x92, 0x02, 0x93, 0x91, 0x07, 0x91, 0xcd, 0x01, 0x2c, 0xa2, 0x68, 0x69]) =
        some .undefined := by
  have hty := HasTy.own (points_derived true (h := 1) (by simp)) (hasTy_derived true)
  refine ⟨hty, by decide, ?_, by decide +kernel⟩
  obtain ⟨ts, w', hput, hread⟩ := fresh hty (show Val.Coherent (fun _ => .null) _ from fun _ hn => nomatch hn)
  have hbytes : (((twoBases true).put (.own (.cls 1) derived) {}).toOption.map
      fun r => bytes r.1) =
      some [0x92, 0x02, 0x93, 0x91, 0x07, 0x91, 0xcd, 0x01, 0x2c, 0xa2, 0x68, 0x69] := by
    decide +kernel
  rw [hput] at hbytes
  refine ⟨ts, w', hput, Option.some.inj hbytes, ?_⟩
  rcases hread 4 (by decide) with ⟨hg, -⟩ | ⟨-, hfail⟩
  · have hbad : (twoBases true).aligned (.own (.cls 1) derived) = false := by decide
    rw [hg.1] at hbad
    cases hbad
  · exact not_readsBack_of_fails hfail

/-! ### Graphs of shared objects -/

theorem isomorphic_of_visit {heap : Nat → Val} {v : Val} (hco : v.Coherent heap) :
    Isomorphic v (v.rename fun a => (v.visit []).idxOf a) := by
  refine ⟨_, ?_, rfl⟩
  intro m hm n hn heq
  have hmem := (visits heap v hco [] (fun _ h => nomatch h)).1
  exact (List.idxOf_inj (hmem m hm)).mp heq

/-- With deduplication, a graph of shared objects comes back isomorphic exactly if every pointer
points at the start of its object and no back reference is to an object whose number needs 32
bits. -/
theorem graph_readsBack_iff {t : Ty} {v : Val} {heap : Nat → Val}
    (hdedup : C.dedupSharedPtrs = true) (h : HasTy C (.sharedPtr t) v) (hco : v.Coherent heap) :
    ∃ ts w', C.put v {} = .ok (ts, w') ∧ ∀ fuel, v.depth ≤ fuel →
      (C.ReadsBack fuel (.sharedPtr t) (bytes ts) (Isomorphic v) ↔
        C.aligned v = true ∧ ∀ k ∈ v.repeats [], misread k = false) := by
  obtain ⟨ts, w', hput, hread⟩ := fresh h hco
  have hgood : C.Good v [] ↔ C.aligned v = true ∧ ∀ k ∈ v.repeats [], misread k = false := by
    simp [Good, hdedup]
  refine ⟨ts, w', hput, ?_⟩
  intro fuel hf
  rw [← hgood]
  rcases hread fuel hf with ⟨hg, v', s', hr, hcp⟩ | ⟨hg, hfail⟩
  · refine ⟨fun _ => hg, ?_⟩
    intro _ junk r
    refine ⟨v', s', readBytes_of_reads hr junk r, ?_⟩
    rw [hcp.2 hdedup]
    exact isomorphic_of_visit hco
  · exact ⟨fun hrb => absurd hrb (not_readsBack_of_fails hfail), fun h => absurd h hg⟩

/-- A class `0` without members and a class `1` with a vector of pointers to it. -/
def starContext : Context where
  bases _ := []
  members c := if c = 1 then [.seq .vector (.sharedPtr (.cls 0))] else []
  isAbstract _ := false
  isPolymorphic _ := false
  isBaseOf b d := b == d
  offset _ _ := 0
  less _ _ _ := false
  equal _ _ _ := false
  widen n := n
  isBaseOf_self := by simp
  offset_self := Program.offsetNone_self
  count_lt := by intro c; split_ifs <;> decide
  less_asymm := Program.compareNone_asymm
  less_erase := Program.compareNone_erase
  equal_erase := Program.compareNone_erase
  types := [0, 1]
  dedupSharedPtrs := true
  order := .big
  types_lt := by decide

def leaf (a : Nat) : Val := .shared (.cls 0) a (.obj 0 [])

/-- Pointers to `n` distinct leaves, and one more to leaf `k`. -/
def spokes (n k : Nat) : List Val := (List.range n).map leaf ++ [leaf k]

def star (n k : Nat) : Val := .shared (.cls 1) n (.obj 1 [.seq (spokes n k)])

theorem visitAll_append (vs us : List Val) (seen : List Nat) :
    Val.visitAll (vs ++ us) seen = Val.visitAll us (Val.visitAll vs seen) := by
  induction vs generalizing seen with
  | nil => rfl
  | cons v vs ih => exact ih (v.visit seen)

theorem repeatsAll_append (vs us : List Val) (seen : List Nat) :
    Val.repeatsAll (vs ++ us) seen =
      Val.repeatsAll vs seen ++ Val.repeatsAll us (Val.visitAll vs seen) := by
  induction vs generalizing seen with
  | nil => rfl
  | cons v vs ih => simp [Val.repeatsAll, Val.visitAll, ih]

theorem visitAll_leaves (n : Nat) : Val.visitAll ((List.range n).map leaf) [] = List.range n := by
  induction n with
  | zero => rfl
  | succ n ih =>
    rw [List.range_succ, List.map_append, visitAll_append, ih]
    simp [Val.visitAll, Val.visit, leaf]

theorem repeatsAll_leaves (n : Nat) : Val.repeatsAll ((List.range n).map leaf) [] = [] := by
  induction n with
  | zero => rfl
  | succ n ih =>
    rw [List.range_succ, List.map_append, repeatsAll_append, ih, visitAll_leaves]
    simp [Val.repeatsAll, Val.repeats, leaf]

/-- The additional pointer is a back reference to the leaf's number. -/
theorem repeats_star {n k : Nat} (hk : k < n) : (star n k).repeats [] = [k] := by
  have hidx : (List.range n).idxOf k = k := by
    have hlen : k < (List.range n).length := by simpa using hk
    have hget : (List.range n)[k] = k := by simp
    conv_lhs => rw [← hget]
    exact List.Nodup.idxOf_getElem List.nodup_range k hlen
  have hspokes : Val.repeatsAll (spokes n k) [] = [k] := by
    rw [spokes, repeatsAll_append, repeatsAll_leaves, visitAll_leaves]
    simp [Val.repeatsAll, Val.repeats, leaf, hk, hidx]
  simp [star, Val.repeats, Val.repeatsAll, hspokes]

theorem points_star (c : Nat) (hc : c ∈ [0, 1]) : starContext.Points (.cls c) (.cls c) :=
  .registered hc hc (starContext.isBaseOf_self c) rfl (.inl rfl)

theorem hasTy_leaf {a : Nat} (ha : a < 2 ^ 64) :
    HasTy starContext (.sharedPtr (.cls 0)) (leaf a) :=
  .shared (points_star 0 (by simp)) ha (hasTy_obj .nil)

theorem mem_spokes {n k : Nat} (hk : k < n) {v : Val} (hv : v ∈ spokes n k) :
    ∃ a, a < n ∧ v = leaf a := by
  simp only [spokes, List.mem_append, List.mem_map, List.mem_range, List.mem_singleton] at hv
  rcases hv with ⟨a, ha, rfl⟩ | rfl
  · exact ⟨a, ha, rfl⟩
  · exact ⟨k, hk, rfl⟩

theorem hasTy_star {n k : Nat} (hk : k < n) (hn : n < 2 ^ 31) :
    HasTy starContext (.sharedPtr (.cls 1)) (star n k) := by
  refine .shared (points_star 1 (by simp)) (by omega) (hasTy_obj (.cons (.seq ?_ ?_) .nil))
  · simp [spokes]
    omega
  · intro v hv
    obtain ⟨a, ha, rfl⟩ := mem_spokes hk hv
    exact hasTy_leaf (by omega)

theorem coherent_star {n k : Nat} (hk : k < n) :
    (star n k).Coherent fun a => if a = n then .obj 1 [.seq (spokes n k)] else .obj 0 [] := by
  intro m hm
  simp only [star, Val.nodes, Val.nodesList_eq_flatMap, List.flatMap_cons, List.flatMap_nil,
    List.append_nil, List.mem_append, List.mem_flatMap, List.mem_singleton] at hm
  rcases hm with ⟨v, hv, hm⟩ | rfl
  · obtain ⟨a, ha, rfl⟩ := mem_spokes hk hv
    simp only [leaf, Val.nodes, Val.nodesList_eq_flatMap, List.flatMap_nil, List.nil_append,
      List.mem_singleton] at hm
    subst hm
    simp [Nat.ne_of_lt ha]
  · simp

/-- Two leaves, the second of them shared. -/
theorem small_star_back :
    ∃ ts w', starContext.put (star 2 1) {} = .ok (ts, w') ∧
      starContext.ReadsBack 5 (.sharedPtr (.cls 1)) (bytes ts) (Isomorphic (star 2 1)) := by
  obtain ⟨ts, w', hput, hread⟩ :=
    graph_readsBack_iff rfl (hasTy_star (n := 2) (k := 1) (by decide) (by decide))
      (coherent_star (by decide))
  exact ⟨ts, w', hput, (hread 5 (by decide)).mpr (by decide)⟩

/-- With 65537 leaves and a second pointer to the last of them, the graph does not come back. -/
theorem large_star_lost :
    HasTy starContext (.sharedPtr (.cls 1)) (star 65537 65536) ∧
    (∃ heap, (star 65537 65536).Coherent heap) ∧
    ∃ ts w', starContext.put (star 65537 65536) {} = .ok (ts, w') ∧
      ∀ fuel, (star 65537 65536).depth ≤ fuel →
        ¬ starContext.ReadsBack fuel (.sharedPtr (.cls 1)) (bytes ts)
          (Isomorphic (star 65537 65536)) := by
  have hty := hasTy_star (n := 65537) (k := 65536) (by omega) (by omega)
  have hco := coherent_star (n := 65537) (k := 65536) (by omega)
  obtain ⟨ts, w', hput, hread⟩ := fresh hty hco
  refine ⟨hty, ⟨_, hco⟩, ts, w', hput, ?_⟩
  intro fuel hf
  rcases hread fuel hf with ⟨hg, -⟩ | ⟨-, hfail⟩
  · have hmis := hg.2 rfl 65536 (by rw [repeats_star (by omega)]; exact List.mem_singleton_self _)
    cases hmis
  · exact not_readsBack_of_fails hfail

/-! ### Truncated encodings -/

end Context

end Nodeoze.Bstream
