import Nodeoze.Any.Patch
import Mathlib.Data.List.Perm.Basic

/-!
# Edits of a tree

What a list of patches is for, without texts and tokens.  An `Edit` names a place by the steps to it
and replaces the value there, removes a child of it, appends an element to it or puts a member into
it.  `edits` lists what makes the second value out of the first, in the order of `createPatches`;
which integers it takes for the same is a parameter.  Where it takes only equal ones for the same,
the edits make a value equal to the second one out of the first, whatever the two are.
-/

namespace Nodeoze.Any

/-! ## Equal values -/

mutual

/-- `any::equals`, with the comparison of doubles that the processor makes. -/
def agrees : Any → Any → Bool
  | .null, .null => true
  | .boolean b, .boolean b' => b == b'
  | .integer i, .integer i' => i == i'
  | .floating w, .floating w' => floatEq w w'
  | .string bs, .string bs' => bs == bs'
  | .blob bs, .blob bs' => bs == bs'
  | .array xs, .array ys => agreesAll xs ys
  | .object ms, .object ns => ms.length == ns.length && agreesMembers ms ns
  | _, _ => false

def agreesAll : List Any → List Any → Bool
  | [], [] => true
  | x :: xs, y :: ys => agrees x y && agreesAll xs ys
  | _, _ => false

def agreesMembers : List (Key × Any) → List (Key × Any) → Bool
  | [], _ => true
  | (k, v) :: ms, ns =>
    (match ns.lookup k with
      | some v' => agrees v v'
      | none => false) && agreesMembers ms ns

end

mutual

/-- The keys of every object are distinct, as those of a map are, and no double is NaN. -/
def Proper : Any → Prop
  | .floating w => isNaN w = false
  | .array xs => ProperAll xs
  | .object ms => (ms.map Prod.fst).Nodup ∧ ProperMembers ms
  | _ => True

def ProperAll : List Any → Prop
  | [] => True
  | x :: xs => Proper x ∧ ProperAll xs

def ProperMembers : List (Key × Any) → Prop
  | [] => True
  | (_, v) :: ms => Proper v ∧ ProperMembers ms

end

theorem properAll_iff (xs : List Any) : ProperAll xs ↔ ∀ x ∈ xs, x.Proper := by
  induction xs with
  | nil => simp [ProperAll]
  | cons x xs ih => simp [ProperAll, ih]

theorem properMembers_iff (ms : List (Key × Any)) : ProperMembers ms ↔ ∀ m ∈ ms, m.2.Proper := by
  induction ms with
  | nil => simp [ProperMembers]
  | cons m ms ih =>
    obtain ⟨k, v⟩ := m
    simp [ProperMembers, ih]

theorem agreesMembers_iff (ms ns : List (Key × Any)) :
    agreesMembers ms ns = true ↔ ∀ m ∈ ms, ∃ v, ns.lookup m.1 = some v ∧ m.2.agrees v = true := by
  induction ms with
  | nil => simp [agreesMembers]
  | cons m ms ih =>
    obtain ⟨k, v⟩ := m
    rw [agreesMembers, Bool.and_eq_true, ih, List.forall_mem_cons]
    apply and_congr_left'
    cases ns.lookup k <;> simp

theorem agreesAll_refl {xs : List Any} (h : ∀ x ∈ xs, x.agrees x = true) :
    agreesAll xs xs = true := by
  induction xs with
  | nil => rfl
  | cons x xs ih =>
    rw [agreesAll, h x List.mem_cons_self, ih fun y hy => h y (List.mem_cons_of_mem x hy)]
    rfl

theorem agrees_refl (x : Any) (hx : x.Proper) : x.agrees x = true := by
  induction x using induct with
  | null => rfl
  | boolean b => simp [agrees]
  | integer i => simp [agrees]
  | floating w =>
    have hw : isNaN w = false := hx
    simp [agrees, floatEq, hw]
  | string bs => simp [agrees]
  | blob bs => simp [agrees]
  | array xs ih =>
    rw [agrees]
    apply agreesAll_refl
    intro x hmem
    exact ih x hmem ((properAll_iff xs).mp hx x hmem)
  | object ms ih =>
    obtain ⟨hnodup, hms⟩ := hx
    have hmembers : agreesMembers ms ms = true := by
      rw [agreesMembers_iff]
      intro m hm
      exact ⟨m.2, lookup_of_mem hnodup hm, ih m hm ((properMembers_iff ms).mp hms m hm)⟩
    simp [agrees, hmembers]

/-- Two arrays or two objects. -/
def sameContainer : Any → Any → Bool
  | .array _, .array _ => true
  | .object _, .object _ => true
  | _, _ => false

/-! ## Members of an object -/

theorem isNone_lookup (ms : List (Key × Any)) (k : Key) :
    (ms.lookup k).isNone = decide (k ∉ ms.map Prod.fst) := by
  rw [Bool.eq_iff_iff, decide_eq_true_eq, Option.isNone_iff_eq_none, lookup_eq_none_iff_keys]

theorem isSome_lookup (ms : List (Key × Any)) (k : Key) :
    (ms.lookup k).isSome = decide (k ∈ ms.map Prod.fst) := by
  rw [← Option.not_isNone, isNone_lookup]
  simp

theorem lookup_append_cons {done ms : List (Key × Any)} {k : Key} (v : Any)
    (hk : k ∉ done.map Prod.fst) : (done ++ (k, v) :: ms).lookup k = some v := by
  rw [List.lookup_append, lookup_eq_none_iff_keys.mpr hk]
  simp

theorem setMember_append_cons {done ms : List (Key × Any)} {k : Key} (v w : Any)
    (hk : k ∉ done.map Prod.fst) :
    setMember (done ++ (k, v) :: ms) k w = done ++ (k, w) :: ms := by
  induction done with
  | nil => simp [setMember]
  | cons m done ih =>
    obtain ⟨k', v'⟩ := m
    have hne : k' ≠ k := fun h => hk (by simp [h])
    have ih' := ih fun h => hk (by simpa using .inr (by simpa using h))
    simp [setMember, hne, ih']

theorem eraseMember_append_cons {done ms : List (Key × Any)} {k : Key} (v : Any)
    (hk : k ∉ done.map Prod.fst) : eraseMember (done ++ (k, v) :: ms) k = done ++ ms := by
  induction done with
  | nil => simp [eraseMember]
  | cons m done ih =>
    obtain ⟨k', v'⟩ := m
    have hne : k' ≠ k := fun h => hk (by simp [h])
    have ih' := ih fun h => hk (by simpa using .inr (by simpa using h))
    simp [eraseMember, hne, ih']

/-- A member is somewhere in the list, with its key nowhere before. -/
theorem exists_of_lookup {ms : List (Key × Any)} {k : Key} {v : Any} (h : ms.lookup k = some v) :
    ∃ before after, ms = before ++ (k, v) :: after ∧ k ∉ before.map Prod.fst := by
  induction ms with
  | nil => simp at h
  | cons m ms ih =>
    obtain ⟨k', v'⟩ := m
    by_cases hk : k = k'
    · subst hk
      obtain rfl : v' = v := by simpa using h
      exact ⟨[], ms, rfl, by simp⟩
    · rw [List.lookup_cons, beq_eq_false_iff_ne.mpr hk] at h
      obtain ⟨before, after, rfl, hbefore⟩ := ih h
      exact ⟨(k', v') :: before, after, rfl, by simpa [hk] using hbefore⟩

/-! ## Children -/

theorem child?_setChild {t c : Any} {s : Sel} (h : child? t s = some c) (v : Any) :
    child? (setChild t s v) s = some v := by
  unfold child? at h
  split at h
  · rename_i xs n
    have hn : n < xs.length := (List.getElem?_eq_some_iff.mp h).1
    simp [child?, setChild, hn]
  · rename_i ms k
    obtain ⟨before, after, rfl, hbefore⟩ := exists_of_lookup h
    rw [setChild, setMember_append_cons c v hbefore, child?, lookup_append_cons v hbefore]
  · cases h

theorem setChild_setChild {t c : Any} {s : Sel} (h : child? t s = some c) (v w : Any) :
    setChild (setChild t s v) s w = setChild t s w := by
  unfold child? at h
  split at h
  · simp [setChild]
  · rename_i ms k
    obtain ⟨before, after, rfl, hbefore⟩ := exists_of_lookup h
    simp only [setChild, setMember_append_cons _ _ hbefore]
  · cases h

theorem setChild_self {t c : Any} {s : Sel} (h : child? t s = some c) : setChild t s c = t := by
  unfold child? at h
  split at h
  · rename_i xs n
    obtain ⟨hn, hc⟩ := List.getElem?_eq_some_iff.mp h
    rw [setChild, ← hc, List.set_getElem_self]
  · rename_i ms k
    obtain ⟨before, after, rfl, hbefore⟩ := exists_of_lookup h
    rw [setChild, setMember_append_cons c c hbefore]
  · cases h

/-! ## Edits -/

/-- What is done to the value at a place. -/
inductive Leaf
  | replace (v : Any)
  | remove (s : Sel)
  | push (v : Any)
  | put (k : Key) (v : Any)

def Leaf.act : Leaf → Any → Option Any
  | .replace v, _ => some v
  | .remove s, t => (child? t s).map fun _ => eraseChild t s
  | .push v, .array xs => some (.array (xs ++ [v]))
  | .put k v, .object ms => if (ms.lookup k).isSome then none else some (.object (ms ++ [(k, v)]))
  | _, _ => none

structure Edit where
  place : List Sel
  leaf : Leaf

def Edit.under (s : Sel) (e : Edit) : Edit := ⟨s :: e.place, e.leaf⟩

def actAt : List Sel → Leaf → Any → Option Any
  | [], leaf, t => leaf.act t
  | s :: place, leaf, t => (child? t s).bind fun c => (actAt place leaf c).map (setChild t s)

/-- Carry edits out one after the other. -/
def actAll : List Edit → Any → Option Any
  | [], t => some t
  | e :: es, t => (actAt e.place e.leaf t).bind (actAll es)

theorem actAll_append (es es' : List Edit) (t : Any) :
    actAll (es ++ es') t = (actAll es t).bind (actAll es') := by
  induction es generalizing t with
  | nil => rfl
  | cons e es ih =>
    simp only [List.cons_append, actAll]
    cases actAt e.place e.leaf t with
    | none => rfl
    | some t' => exact ih t'

/-- Edits of a child are edits of the value that it belongs to. -/
theorem actAll_under {es : List Edit} {t c c' : Any} {s : Sel} (hc : child? t s = some c)
    (h : actAll es c = some c') : actAll (es.map (Edit.under s)) t = some (setChild t s c') := by
  induction es generalizing t c with
  | nil =>
    obtain rfl : c = c' := Option.some.inj h
    rw [setChild_self hc]
    rfl
  | cons e es ih =>
    obtain ⟨d, hd, hrest⟩ := Option.bind_eq_some_iff.mp h
    have hstep : actAt (e.under s).place (e.under s).leaf t = some (setChild t s d) := by
      simp [Edit.under, actAt, hc, hd]
    rw [List.map_cons, actAll, hstep, Option.bind_some, ih (child?_setChild hc d) hrest,
      setChild_setChild hc]

/-! ## The edits between two values -/

section Between

variable (same : Int64 → Int64 → Bool)

mutual

/-- What makes the second value out of the first. -/
def edits : Any → Any → List Edit
  | .null, .null => []
  | .boolean b, .boolean b' => if b != b' then [⟨[], .replace (.boolean b')⟩] else []
  | .integer i, .integer i' => if !same i i' then [⟨[], .replace (.integer i')⟩] else []
  | .floating w, .floating w' => if !floatEq w w' then [⟨[], .replace (.floating w')⟩] else []
  | .string bs, .string bs' => if bs != bs' then [⟨[], .replace (.string bs')⟩] else []
  | .blob bs, .blob bs' => if bs != bs' then [⟨[], .replace (.blob bs')⟩] else []
  | .array xs, .array ys =>
    elemEdits 0 xs ys
      ++ List.replicate (xs.length - min xs.length ys.length)
          ⟨[], .remove (.elem (min xs.length ys.length))⟩
      ++ (ys.drop (min xs.length ys.length)).map fun y => ⟨[], .push y⟩
  | .object ms, .object ns =>
    memberEdits ms ns
      ++ (ns.filter fun m => (ms.lookup m.1).isNone).map fun m => ⟨[], .put m.1 m.2⟩
  | _, rhs => [⟨[], .replace rhs⟩]

def elemEdits : Nat → List Any → List Any → List Edit
  | index, x :: xs, y :: ys =>
    (edits x y).map (Edit.under (.elem index)) ++ elemEdits (index + 1) xs ys
  | _, _, _ => []

def memberEdits : List (Key × Any) → List (Key × Any) → List Edit
  | [], _ => []
  | (k, v) :: ms, ns =>
    (match ns.lookup k with
      | some v' => (edits v v').map (Edit.under (.member k))
      | none => [⟨[], .remove (.member k)⟩])
      ++ memberEdits ms ns

end

/-- Keys that both have the same number of, one list inside the other. -/
theorem mem_keys_of_subset {ms ns : List (Key × Any)} (hms : (ms.map Prod.fst).Nodup)
    (hsub : ms.map Prod.fst ⊆ ns.map Prod.fst) (hlen : ns.length ≤ ms.length) {k : Key}
    (hk : k ∈ ns.map Prod.fst) : k ∈ ms.map Prod.fst := by
  have hperm : (ms.map Prod.fst).Perm (ns.map Prod.fst) :=
    (List.subperm_of_subset hms hsub).perm_of_length_le (by simpa using hlen)
  exact hperm.mem_iff.mpr hk

theorem elemEdits_of_agrees {xs ys : List Any}
    (h : ∀ x ∈ xs, ∀ y, x.agrees y = true → edits same x y = []) (hall : agreesAll xs ys = true)
    (index : Nat) : elemEdits same index xs ys = [] ∧ xs.length = ys.length := by
  induction xs generalizing ys index with
  | nil => cases ys <;> simp_all [agreesAll, elemEdits]
  | cons x xs ih =>
    cases ys with
    | nil => simp [agreesAll] at hall
    | cons y ys =>
      obtain ⟨hxy, hrest⟩ := Bool.and_eq_true_iff.mp hall
      obtain ⟨hnil, hlen⟩ := ih (fun z hz => h z (by simp [hz])) hrest (index + 1)
      exact ⟨by simp [elemEdits, h x (by simp) y hxy, hnil], by simp [hlen]⟩

theorem memberEdits_of_agrees {ms ns : List (Key × Any)}
    (h : ∀ m ∈ ms, ∃ v, ns.lookup m.1 = some v ∧ edits same m.2 v = []) :
    memberEdits same ms ns = [] := by
  induction ms with
  | nil => rfl
  | cons m ms ih =>
    obtain ⟨k, v⟩ := m
    obtain ⟨v', hlookup, hv⟩ := h (k, v) (by simp)
    have hkey : ns.lookup k = some v' := hlookup
    have hnil : edits same v v' = [] := hv
    simp [memberEdits, hkey, hnil, ih fun m hm => h m (by simp [hm])]

/-- Nothing is done to a value that is equal. -/
theorem edits_of_agrees (hsame : ∀ i, same i i = true) {l r : Any} (hl : l.Proper)
    (h : l.agrees r = true) : edits same l r = [] := by
  induction l using induct generalizing r with
  | null => cases r <;> simp_all [agrees, edits]
  | boolean b => cases r <;> simp_all [agrees, edits]
  | integer i => cases r <;> simp_all [agrees, edits]
  | floating w => cases r <;> simp_all [agrees, edits]
  | string bs => cases r <;> simp_all [agrees, edits]
  | blob bs => cases r <;> simp_all [agrees, edits]
  | array xs ih =>
    cases r with
    | array ys =>
      have hxs := (properAll_iff xs).mp hl
      obtain ⟨hnil, hlen⟩ := elemEdits_of_agrees same (fun x hx y hy => ih x hx (hxs x hx) hy) h 0
      simp [edits, hnil, hlen]
    | _ => simp [agrees] at h
  | object ms ih =>
    cases r with
    | object ns =>
      obtain ⟨hlen, hmembers⟩ := Bool.and_eq_true_iff.mp h
      rw [agreesMembers_iff] at hmembers
      have hkept : memberEdits same ms ns = [] := by
        apply memberEdits_of_agrees
        intro m hm
        obtain ⟨v, hv, hagree⟩ := hmembers m hm
        exact ⟨v, hv, ih m hm ((properMembers_iff ms).mp hl.2 m hm) hagree⟩
      have hsub : ms.map Prod.fst ⊆ ns.map Prod.fst := by
        intro k hk
        obtain ⟨m, hm, rfl⟩ := List.mem_map.mp hk
        obtain ⟨v, hv, -⟩ := hmembers m hm
        by_contra hnot
        rw [lookup_eq_none_iff_keys.mpr hnot] at hv
        cases hv
      have hadded : (ns.filter fun m => (ms.lookup m.1).isNone) = [] := by
        rw [List.filter_eq_nil_iff]
        intro m hm hnone
        rw [Option.isNone_iff_eq_none, lookup_eq_none_iff_keys] at hnone
        exact hnone (mem_keys_of_subset hl.1 hsub (beq_iff_eq.mp hlen).ge
          (List.mem_map.mpr ⟨m, hm, rfl⟩))
      simp [edits, hkept, hadded]
    | _ => simp [agrees] at h

/-! ## What the edits make -/

/-- The edits make a value equal to the second out of the first. -/
def Settles (es : List Edit) (l r : Any) : Prop := ∃ l', actAll es l = some l' ∧ l'.agrees r = true

theorem elemEdits_settle {xs ys : List Any}
    (h : ∀ x ∈ xs, ∀ y ∈ ys, Settles (edits same x y) x y) (done : List Any) :
    ∃ zs, actAll (elemEdits same done.length xs ys) (.array (done ++ xs))
        = some (.array (done ++ zs ++ xs.drop ys.length)) ∧
      agreesAll zs (ys.take xs.length) = true := by
  induction xs generalizing ys done with
  | nil => exact ⟨[], by simp [elemEdits, actAll], by simp [agreesAll]⟩
  | cons x xs ih =>
    cases ys with
    | nil => exact ⟨[], by simp [elemEdits, actAll], by simp [agreesAll]⟩
    | cons y ys =>
      obtain ⟨x', hx', hagree⟩ := h x (by simp) y (by simp)
      have hrest : ∀ z ∈ xs, ∀ w ∈ ys, Settles (edits same z w) z w :=
        fun z hz w hw => h z (by simp [hz]) w (by simp [hw])
      obtain ⟨zs, hzs, hall⟩ := ih hrest (done ++ [x'])
      have hchild : child? (.array (done ++ x :: xs)) (.elem done.length) = some x := by simp [child?]
      have hset : setChild (.array (done ++ x :: xs)) (.elem done.length) x'
          = .array (done ++ [x'] ++ xs) := by simp [setChild]
      refine ⟨x' :: zs, ?_, by simp [agreesAll, hagree, hall]⟩
      rw [elemEdits, actAll_append, actAll_under hchild hx', Option.bind_some, hset]
      simpa using hzs

theorem actAll_removals (zs ws : List Any) :
    actAll (List.replicate ws.length ⟨[], .remove (.elem zs.length)⟩) (.array (zs ++ ws))
      = some (.array zs) := by
  induction ws with
  | nil => simp [actAll]
  | cons w ws ih =>
    have herase : (zs ++ w :: ws).eraseIdx zs.length = zs ++ ws := by
      rw [List.eraseIdx_append_of_length_le (Nat.le_refl _)]
      simp
    simp [List.replicate_succ, actAll, actAt, Leaf.act, child?, eraseChild, herase, ih]

theorem actAll_pushes (zs vs : List Any) :
    actAll (vs.map fun v => ⟨[], .push v⟩) (.array zs) = some (.array (zs ++ vs)) := by
  induction vs generalizing zs with
  | nil => simp [actAll]
  | cons v vs ih => simp [actAll, actAt, Leaf.act, ih]

theorem memberEdits_settle {ms ns : List (Key × Any)} (done : List (Key × Any))
    (hnodup : ((done ++ ms).map Prod.fst).Nodup)
    (h : ∀ m ∈ ms, ∀ v, ns.lookup m.1 = some v → Settles (edits same m.2 v) m.2 v) :
    ∃ kept, actAll (memberEdits same ms ns) (.object (done ++ ms)) = some (.object (done ++ kept)) ∧
      kept.map Prod.fst = (ms.map Prod.fst).filter (fun k => (ns.lookup k).isSome) ∧
      agreesMembers kept ns = true := by
  induction ms generalizing done with
  | nil => exact ⟨[], by simp [memberEdits, actAll], rfl, rfl⟩
  | cons m ms ih =>
    obtain ⟨k, v⟩ := m
    have hk : k ∉ done.map Prod.fst := by
      rw [List.map_append, List.nodup_append] at hnodup
      intro hmem
      exact hnodup.2.2 k hmem k (by simp) rfl
    have hchild : child? (.object (done ++ (k, v) :: ms)) (.member k) = some v :=
      lookup_append_cons v hk
    have hrest : ∀ m ∈ ms, ∀ v, ns.lookup m.1 = some v → Settles (edits same m.2 v) m.2 v :=
      fun m hm => h m (by simp [hm])
    cases hlookup : ns.lookup k with
    | some v' =>
      obtain ⟨w, hw, hagree⟩ := h (k, v) (by simp) v' hlookup
      obtain ⟨kept, hkept, hkeys, hall⟩ := ih (done ++ [(k, w)]) (by simpa using hnodup) hrest
      have hset : setChild (.object (done ++ (k, v) :: ms)) (.member k) w
          = .object (done ++ [(k, w)] ++ ms) := by
        rw [setChild, setMember_append_cons v w hk]
        simp
      refine ⟨(k, w) :: kept, ?_, by simp [hlookup, hkeys], by simp [agreesMembers, hlookup, hagree, hall]⟩
      simp only [memberEdits, hlookup]
      rw [actAll_append, actAll_under hchild hw, Option.bind_some, hset]
      simpa using hkept
    | none =>
      have hnodup' : ((done ++ ms).map Prod.fst).Nodup := by
        refine hnodup.sublist ?_
        exact (List.Sublist.append_left (List.sublist_cons_self _ _) _).map _
      obtain ⟨kept, hkept, hkeys, hall⟩ := ih done hnodup' hrest
      refine ⟨kept, ?_, by simp [hlookup, hkeys], hall⟩
      simp only [memberEdits, hlookup]
      rw [actAll_append]
      simp [actAll, actAt, Leaf.act, hchild, eraseChild, eraseMember_append_cons v hk, hkept]

theorem actAll_puts (ms vs : List (Key × Any)) (hnodup : ((ms ++ vs).map Prod.fst).Nodup) :
    actAll (vs.map fun m => ⟨[], .put m.1 m.2⟩) (.object ms) = some (.object (ms ++ vs)) := by
  induction vs generalizing ms with
  | nil => simp [actAll]
  | cons m vs ih =>
    obtain ⟨k, v⟩ := m
    have hk : ms.lookup k = none := by
      rw [lookup_eq_none_iff_keys]
      rw [List.map_append, List.nodup_append] at hnodup
      intro hmem
      exact hnodup.2.2 k hmem k (by simp) rfl
    have ih' := ih (ms ++ [(k, v)]) (by simpa using hnodup)
    simp [actAll, actAt, Leaf.act, hk, ih']

/-- The keys that are kept and those that are added are the keys of the second object. -/
theorem perm_keys {ks ls : List Key} (hks : ks.Nodup) (hls : ls.Nodup) :
    (ks.filter (fun k => decide (k ∈ ls)) ++ ls.filter (fun k => decide (k ∉ ks))).Perm ls := by
  rw [List.perm_ext_iff_of_nodup ?_ hls]
  · intro k
    by_cases hk : k ∈ ks <;> simp [hk]
  · rw [List.nodup_append]
    refine ⟨hks.filter _, hls.filter _, ?_⟩
    rintro a ha b hb rfl
    simp only [List.mem_filter, decide_eq_true_eq] at ha hb
    exact hb.2 ha.1

theorem agreesAll_append {xs ys xs' ys' : List Any} (h : agreesAll xs ys = true)
    (h' : agreesAll xs' ys' = true) : agreesAll (xs ++ xs') (ys ++ ys') = true := by
  induction xs generalizing ys with
  | nil =>
    cases ys with
    | nil => exact h'
    | cons y ys => simp [agreesAll] at h
  | cons x xs ih =>
    cases ys with
    | nil => simp [agreesAll] at h
    | cons y ys =>
      obtain ⟨hxy, hrest⟩ := Bool.and_eq_true_iff.mp h
      simp [agreesAll, hxy, ih hrest]

theorem length_of_agreesAll {xs ys : List Any} (h : agreesAll xs ys = true) :
    xs.length = ys.length := by
  induction xs generalizing ys with
  | nil => cases ys <;> simp_all [agreesAll]
  | cons x xs ih =>
    cases ys with
    | nil => simp [agreesAll] at h
    | cons y ys => simp [ih (Bool.and_eq_true_iff.mp h).2]

theorem array_settle {xs ys : List Any} (hys : ∀ y ∈ ys, y.Proper)
    (h : ∀ x ∈ xs, ∀ y ∈ ys, Settles (edits same x y) x y) :
    Settles (edits same (.array xs) (.array ys)) (.array xs) (.array ys) := by
  obtain ⟨zs, hzs, hall⟩ := elemEdits_settle same h []
  have hlen : zs.length = min xs.length ys.length := by
    rw [length_of_agreesAll hall, List.length_take]
  have hremoved := actAll_removals zs (xs.drop ys.length)
  have hcount : xs.length - min xs.length ys.length = (xs.drop ys.length).length := by
    rw [List.length_drop]
    omega
  have hadded : ys.drop (min xs.length ys.length) = ys.drop xs.length := by
    by_cases hle : xs.length ≤ ys.length
    · rw [Nat.min_eq_left hle]
    · rw [Nat.min_eq_right (by omega), List.drop_length, List.drop_of_length_le (by omega)]
  refine ⟨.array (zs ++ ys.drop xs.length), ?_, ?_⟩
  · simp only [List.nil_append, List.length_nil] at hzs
    rw [edits, actAll_append, actAll_append, hzs, Option.bind_some, hcount, ← hlen, hremoved,
      Option.bind_some, hlen, hadded, actAll_pushes]
  · have hdrop : agreesAll (ys.drop xs.length) (ys.drop xs.length) = true := by
      apply agreesAll_refl
      intro y hy
      exact agrees_refl y (hys y (List.mem_of_mem_drop hy))
    rw [agrees]
    simpa using agreesAll_append hall hdrop

theorem object_settle {ms ns : List (Key × Any)} (hms : (ms.map Prod.fst).Nodup)
    (hns : (ns.map Prod.fst).Nodup) (hproper : ∀ n ∈ ns, n.2.Proper)
    (h : ∀ m ∈ ms, ∀ v, ns.lookup m.1 = some v → Settles (edits same m.2 v) m.2 v) :
    Settles (edits same (.object ms) (.object ns)) (.object ms) (.object ns) := by
  obtain ⟨kept, hkept, hkeys, hagree⟩ := memberEdits_settle same [] (by simpa using hms) h
  let added := ns.filter fun m => (ms.lookup m.1).isNone
  have haddedKeys : added.map Prod.fst
      = (ns.map Prod.fst).filter (fun k => decide (k ∉ ms.map Prod.fst)) := by
    rw [List.filter_map]
    congr 1
    apply List.filter_congr
    intro m _
    exact isNone_lookup ms m.1
  have hkeptKeys : kept.map Prod.fst
      = (ms.map Prod.fst).filter (fun k => decide (k ∈ ns.map Prod.fst)) := by
    rw [hkeys]
    apply List.filter_congr
    intro k _
    exact isSome_lookup ns k
  have hperm : ((kept ++ added).map Prod.fst).Perm (ns.map Prod.fst) := by
    rw [List.map_append, hkeptKeys, haddedKeys]
    exact perm_keys hms hns
  refine ⟨.object (kept ++ added), ?_, ?_⟩
  · simp only [List.nil_append] at hkept
    rw [edits, actAll_append, hkept, Option.bind_some]
    exact actAll_puts kept added (hperm.nodup_iff.mpr hns)
  · have hmembers : agreesMembers (kept ++ added) ns = true := by
      rw [agreesMembers_iff]
      intro m hm
      rcases List.mem_append.mp hm with hin | hin
      · exact (agreesMembers_iff kept ns).mp hagree m hin
      · have hmem : m ∈ ns := (List.mem_filter.mp hin).1
        exact ⟨m.2, lookup_of_mem hns hmem, agrees_refl m.2 (hproper m hmem)⟩
    have hlen : (kept ++ added).length = ns.length := by simpa using hperm.length_eq
    rw [agrees, hmembers, hlen]
    simp

end Between

theorem mem_of_lookup {ms : List (Key × Any)} {k : Key} {v : Any} (h : ms.lookup k = some v) :
    (k, v) ∈ ms := by
  obtain ⟨before, after, rfl, -⟩ := exists_of_lookup h
  simp

/-- A value that is not compared piece by piece is replaced as a whole. -/
theorem edits_eq_replace {l r : Any} (hatom : sameContainer l r = false)
    (hdiffer : l.agrees r = false) : edits (· == ·) l r = [⟨[], .replace r⟩] := by
  cases l <;> cases r <;> simp_all [sameContainer, agrees, edits]

theorem atom_settle {l r : Any} (hl : l.Proper) (hr : r.Proper) (hatom : sameContainer l r = false) :
    Settles (edits (· == ·) l r) l r := by
  by_cases hagree : l.agrees r = true
  · rw [edits_of_agrees _ (by simp) hl hagree]
    exact ⟨l, rfl, hagree⟩
  · rw [edits_eq_replace hatom (by simpa using hagree)]
    exact ⟨r, rfl, agrees_refl r hr⟩

/-- Edits that tell all integers apart settle any two values. -/
theorem edits_settle {l r : Any} (hl : l.Proper) (hr : r.Proper) :
    Settles (edits (· == ·) l r) l r := by
  induction l using induct generalizing r with
  | array xs ih =>
    cases r with
    | array ys =>
      have hxs := (properAll_iff xs).mp hl
      have hys := (properAll_iff ys).mp hr
      apply array_settle _ hys
      intro x hx y hy
      exact ih x hx (hxs x hx) (hys y hy)
    | _ => exact atom_settle hl hr rfl
  | object ms ih =>
    cases r with
    | object ns =>
      have hms := (properMembers_iff ms).mp hl.2
      have hns := (properMembers_iff ns).mp hr.2
      apply object_settle _ hl.1 hr.1 hns
      intro m hm v hv
      exact ih m hm (hms m hm) (hns _ (mem_of_lookup hv))
    | _ => exact atom_settle hl hr rfl
  | _ => exact atom_settle hl hr (by cases r <;> rfl)

end Nodeoze.Any
