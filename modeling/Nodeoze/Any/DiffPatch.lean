import Nodeoze.Any.Edits

/-!
# Patch undoes diff

`createPatches` writes down the edits between two values, each as an object with the text of its
place, and `apply` finds the place again.  It carries the same edit out where the text can be read
back: no key on the way has a slash or an escape, no key but the last is empty, an index fits an
`int`, and a new value is not null.  A new member is put under the first token of its path, which is
its own key only in the root or under keys that are equal to it.

`undoable` collects these conditions for all edits between two values, with the one on integers:
negative ones are all the same to `createPatches`.
-/

namespace Nodeoze.Any

/-! ## Edits as patches -/

def Sel.token : Sel → Key
  | .elem n => decimal n
  | .member k => k

/-- A step that is found by its token. -/
def Sel.Plain : Sel → Prop
  | .elem n => n < 2 ^ 31
  | .member k => plainKey k

def Edit.at_ (place : List Sel) (e : Edit) : Edit := ⟨place ++ e.place, e.leaf⟩

/-- The text of a place. -/
def pathOf (place : List Sel) : Key := render (place.map Sel.token)

def Edit.encode (e : Edit) : Any :=
  match e.leaf with
  | .replace v => patchObject (text "replace") (pathOf e.place) v
  | .remove s => patchObject (text "remove") (actualPath (pathOf e.place) s.token) .null
  | .push v => patchObject (text "add") (actualPath (pathOf e.place) dash) v
  | .put k v => patchObject (text "add") (actualPath (pathOf e.place) k) v

/-- The patches for edits of the value at a place. -/
def encodeAt (place : List Sel) (es : List Edit) : List Any :=
  es.map fun e => (e.at_ place).encode

/-- How `createPatches` compares integers. -/
def sameUint64 (i i' : Int64) : Bool := toUint64 i == toUint64 i'

@[simp] theorem addPatch_nil (op path suffix : Key) (obj : Any) :
    addPatch [] op path suffix obj = [patchObject op (actualPath path suffix) obj] := by
  simp [addPatch]

@[simp] theorem actualPath_nil (path : Key) : actualPath path [] = path := rfl

theorem pathOf_concat (place : List Sel) (s : Sel) :
    pathOf (place ++ [s]) = pathOf place ++ slash :: s.token := by
  simp [pathOf, render_append]

theorem Edit.at_under (place : List Sel) (s : Sel) (e : Edit) :
    (e.under s).at_ place = e.at_ (place ++ [s]) := by
  simp [Edit.at_, Edit.under]

theorem encodeAt_append (place : List Sel) (es es' : List Edit) :
    encodeAt place (es ++ es') = encodeAt place es ++ encodeAt place es' := List.map_append

theorem encodeAt_under (place : List Sel) (s : Sel) (es : List Edit) :
    encodeAt place (es.map (Edit.under s)) = encodeAt (place ++ [s]) es := by
  unfold encodeAt
  rw [List.map_map]
  apply List.map_congr_left
  intro e _
  simp [Edit.at_under]

theorem createElems_eq {xs ys : List Any} (place : List Sel)
    (h : ∀ x ∈ xs, ∀ place y, createPatches [] (pathOf place) x y
      = encodeAt place (edits sameUint64 x y)) (index : Nat) :
    createElems [] (pathOf place) index xs ys
      = encodeAt place (elemEdits sameUint64 index xs ys) := by
  induction xs generalizing ys index with
  | nil => simp [createElems, elemEdits, encodeAt]
  | cons x xs ih =>
    cases ys with
    | nil => simp [createElems, elemEdits, encodeAt]
    | cons y ys =>
      have hx := h x (by simp) (place ++ [.elem index]) y
      rw [pathOf_concat] at hx
      have ih' := @ih ys (fun z hz => h z (by simp [hz])) (index + 1)
      rw [createElems, elemEdits, encodeAt_append, encodeAt_under, ← ih', ← hx]
      rfl

theorem createMembers_eq {ms ns : List (Key × Any)} (place : List Sel)
    (h : ∀ m ∈ ms, ∀ place y, createPatches [] (pathOf place) m.2 y
      = encodeAt place (edits sameUint64 m.2 y)) :
    createMembers [] (pathOf place) ms ns
      = encodeAt place (memberEdits sameUint64 ms ns) := by
  induction ms with
  | nil => simp [createMembers, memberEdits, encodeAt]
  | cons m ms ih =>
    obtain ⟨k, v⟩ := m
    rw [createMembers, memberEdits, encodeAt_append, ih fun m hm => h m (by simp [hm])]
    congr 1
    cases hlookup : ns.lookup k with
    | none => simp [encodeAt, Edit.encode, Edit.at_, Sel.token]
    | some v' =>
      have hv := h (k, v) (by simp) (place ++ [.member k]) v'
      rw [pathOf_concat] at hv
      simp only [encodeAt_under, ← hv]
      rfl

@[simp] theorem encodeAt_replace (place : List Sel) (v : Any) :
    encodeAt place [⟨[], .replace v⟩] = [patchObject (text "replace") (pathOf place) v] := by
  simp [encodeAt, Edit.encode, Edit.at_]

/-- A comparison that leads to at most one replacement. -/
theorem encodeAt_ite (differ : Bool) (place : List Sel) (r : Any) :
    (if differ then addPatch [] (text "replace") (pathOf place) [] r else [])
      = encodeAt place (if differ then [⟨[], .replace r⟩] else []) := by
  cases differ
  · rfl
  · simp

theorem encodeAt_push (place : List Sel) (ys : List Any) :
    ys.flatMap (addPatch [] (text "add") (pathOf place) dash)
      = encodeAt place (ys.map fun y => ⟨[], .push y⟩) := by
  unfold encodeAt
  rw [List.map_map, List.map_eq_flatMap]
  congr 1
  funext y
  simp [Edit.encode, Edit.at_]

theorem encodeAt_put (place : List Sel) (ns : List (Key × Any)) :
    (ns.flatMap fun m => addPatch [] (text "add") (pathOf place) m.1 m.2)
      = encodeAt place (ns.map fun m => ⟨[], .put m.1 m.2⟩) := by
  unfold encodeAt
  rw [List.map_map, List.map_eq_flatMap]
  congr 1
  funext m
  simp [Edit.encode, Edit.at_]

theorem encodeAt_remove (place : List Sel) (count index : Nat) :
    (List.replicate count (addPatch [] (text "remove") (pathOf place) (decimal index) .null)).flatten
      = encodeAt place (List.replicate count ⟨[], .remove (.elem index)⟩) := by
  simp [encodeAt, Edit.encode, Edit.at_, Sel.token]

/-- The patches are the edits, one by one. -/
theorem createPatches_eq (l : Any) (place : List Sel) (r : Any) :
    createPatches [] (pathOf place) l r = encodeAt place (edits sameUint64 l r) := by
  induction l using induct generalizing place r with
  | array xs ih =>
    cases r with
    | array ys =>
      have helems := @createElems_eq xs ys place ih 0
      rw [createPatches, edits, encodeAt_append, encodeAt_append, helems, encodeAt_push,
        encodeAt_remove]
    | _ => simp [createPatches, edits]
  | object ms ih =>
    cases r with
    | object ns =>
      rw [createPatches, edits, encodeAt_append, createMembers_eq place ih, encodeAt_put]
    | _ => simp [createPatches, edits]
  | null => cases r <;> first | rfl | simp [createPatches, edits]
  | boolean b => cases r <;> first | exact encodeAt_ite _ place _ | simp [createPatches, edits]
  | integer i => cases r <;> first | exact encodeAt_ite _ place _ | simp [createPatches, edits]
  | floating w => cases r <;> first | exact encodeAt_ite _ place _ | simp [createPatches, edits]
  | string bs => cases r <;> first | exact encodeAt_ite _ place _ | simp [createPatches, edits]
  | blob bs => cases r <;> first | exact encodeAt_ite _ place _ | simp [createPatches, edits]

/-! ## Finding a place by its text -/

theorem getAt_append (p q : List Sel) (t : Any) : getAt (p ++ q) t = (getAt p t).bind (getAt q) := by
  induction p generalizing t with
  | nil => rfl
  | cons s p ih =>
    simp only [List.cons_append, getAt]
    cases child? t s with
    | none => rfl
    | some c => exact ih c

theorem modifyAt_append (p q : List Sel) (f : Any → Any) (t : Any) :
    modifyAt (p ++ q) f t = modifyAt p (modifyAt q f) t := by
  induction p generalizing t with
  | nil => rfl
  | cons s p ih =>
    simp only [List.cons_append, modifyAt]
    cases child? t s with
    | none => rfl
    | some c => simp [ih c]

theorem modifyAt_congr {place : List Sel} {t c : Any} (h : getAt place t = some c)
    {f g : Any → Any} (hfg : f c = g c) : modifyAt place f t = modifyAt place g t := by
  induction place generalizing t with
  | nil =>
    obtain rfl : t = c := Option.some.inj h
    exact hfg
  | cons s place ih =>
    obtain ⟨d, hd, hrest⟩ := Option.bind_eq_some_iff.mp h
    simp only [modifyAt, hd, ih hrest]

theorem actAt_eq (place : List Sel) (leaf : Leaf) (t : Any) :
    actAt place leaf t
      = (getAt place t).bind fun c => (leaf.act c).map fun c' => modifyAt place (fun _ => c') t := by
  induction place generalizing t with
  | nil => simp [actAt, getAt, modifyAt]
  | cons s place ih =>
    cases hs : child? t s with
    | none => simp [actAt, getAt, hs]
    | some d =>
      simp only [actAt, getAt, hs, Option.bind_some, modifyAt, ih d]
      cases getAt place d with
      | none => rfl
      | some c =>
        rw [Option.bind_some, Option.bind_some, Option.map_map]
        rfl

theorem plainKey_token {s : Sel} (h : s.Plain) : plainKey s.token := by
  cases s with
  | elem n => exact plainKey_decimal n
  | member k => exact h

/-- One turn of the loop, to a child that exists. -/
theorem seek_cons {t c : Any} {s : Sel} (h : child? t s = some c) (hs : s.Plain)
    (tokens rest : List Key) (index : Nat) (place : List Sel) :
    seek tokens (s.token :: rest) index t place
      = if rest.isEmpty then ⟨tokens, index + 1, true, some place, some s⟩
        else seek tokens rest (index + 1) c (place ++ [s]) := by
  have hkey := (plainKey_token hs).2
  unfold child? at h
  split at h
  · rename_i xs n
    have hlt : n < 2 ^ 31 := hs
    have hmod : ((n : Int) % 4294967296).toNat = n := by omega
    simp only [Sel.token] at hkey
    simp [seek, Sel.token, hkey, decimal_ne_dash, stoi_decimal hlt, hmod, h]
  · rename_i ms k
    simp only [Sel.token] at hkey
    simp [seek, Sel.token, hkey, h]
  · cases h

theorem seek_append {steps : List Sel} {t c : Any} (h : getAt steps t = some c)
    (hsteps : ∀ s ∈ steps, s.Plain) (tokens : List Key) {rest : List Key} (hrest : rest ≠ [])
    (index : Nat) (place : List Sel) :
    seek tokens (steps.map Sel.token ++ rest) index t place
      = seek tokens rest (index + steps.length) c (place ++ steps) := by
  induction steps generalizing t index place with
  | nil =>
    obtain rfl : t = c := Option.some.inj h
    simp
  | cons s steps ih =>
    obtain ⟨d, hd, hc⟩ := Option.bind_eq_some_iff.mp h
    have hne : (steps.map Sel.token ++ rest).isEmpty = false := by simp [hrest]
    rw [List.map_cons, List.cons_append, seek_cons hd (hsteps s (by simp)), hne,
      if_neg (by simp), ih hc fun s hs => hsteps s (by simp [hs])]
    simp [Nat.add_assoc, Nat.add_comm 1]

/-- `find` reads the way to a place back, and is left with the last token. -/
theorem find_pathOf {place : List Sel} {t c : Any} (h : getAt place t = some c)
    (hplace : ∀ s ∈ place, s.Plain ∧ s.token ≠ []) {token : Key} (htoken : slash ∉ token) :
    find t (pathOf place ++ slash :: token)
      = seek (place.map Sel.token ++ [token]) [token] place.length c place := by
  have hrender : pathOf place ++ slash :: token = render (place.map Sel.token ++ [token]) := by
    simp [pathOf, render_append]
  have hslash : ∀ u ∈ place.map Sel.token ++ [token], slash ∉ u := by
    intro u hu
    rcases List.mem_append.mp hu with hin | hin
    · obtain ⟨s, hs, rfl⟩ := List.mem_map.mp hin
      exact (plainKey_token (hplace s hs).1).1
    · rw [List.mem_singleton.mp hin]
      exact htoken
  have htokens : tokensOf (render (place.map Sel.token ++ [token])) = place.map Sel.token ++ [token] := by
    rw [tokensOf_render _ _ hslash, filter_nonempty]
    intro u hu
    obtain ⟨s, hs, rfl⟩ := List.mem_map.mp hu
    exact (hplace s hs).2
  have hne : (pathOf place ++ slash :: token).isEmpty = false := by simp
  rw [find, hne, if_neg (by simp), hrender, htokens,
    seek_append h (fun s hs => (hplace s hs).1) _ (by simp)]
  simp

/-! ## Carrying a patch out -/

section Fields

variable (op path : Key) (obj : Any)

theorem member_op : (patchObject op path obj).member (text "op") = .string op := by
  cases obj <;> rfl

theorem member_path : (patchObject op path obj).member (text "path") = .string path := by
  cases obj <;> rfl

theorem member_value : (patchObject op path obj).member (text "value") = obj := by
  cases obj <;> rfl

end Fields

theorem decode_replace : decodePatchOperation (.string (text "replace")) = .replace := by decide

theorem decode_remove : decodePatchOperation (.string (text "remove")) = .remove := by decide

theorem decode_add : decodePatchOperation (.string (text "add")) = .add := by decide

theorem check_true {b : Bool} (h : b = true) : check b = .ok () := by simp [check, h]

theorem target_eq {f : Found} {t c : Any} {place : List Sel} {s : Sel} (hplace : f.parent = some place)
    (hs : f.child = some s) (h : getAt (place ++ [s]) t = some c) :
    f.target t = .ok (place, s, c) := by
  rw [Found.target, hplace, hs]
  change (deref (getAt (place ++ [s]) t) >>= fun value => pure (place, s, value)) = _
  rw [h]
  rfl

theorem apply_root (t v : Any) (hv : v.isNull = false) :
    apply t (patchObject (text "replace") [] v) = .ok v := by
  unfold apply
  rw [member_op, member_path, member_value, decode_replace]
  simp only [check_true (show (!v.isNull) = true by simp [hv])]
  rfl

theorem apply_replace {t v c : Any} {path : Key} (hpath : path ≠ []) (hv : v.isNull = false)
    {tokens : List Key} {index : Nat} {place : List Sel} {s : Sel}
    (hfind : find t path = ⟨tokens, index, true, some place, some s⟩)
    (hget : getAt (place ++ [s]) t = some c) :
    apply t (patchObject (text "replace") path v)
      = .ok (modifyAt place (fun p => setChild p s v) t) := by
  have hne : path.isEmpty = false := by simpa using hpath
  unfold apply
  rw [member_op, member_path, member_value, decode_replace]
  simp only [hne, hfind, check_true (show (!v.isNull) = true by simp [hv])]
  rw [target_eq rfl rfl hget]
  rfl

theorem apply_remove {t c : Any} {path : Key} (hpath : path ≠ [])
    {tokens : List Key} {index : Nat} {place : List Sel} {s : Sel}
    (hfind : find t path = ⟨tokens, index, true, some place, some s⟩)
    (hget : getAt (place ++ [s]) t = some c) :
    apply t (patchObject (text "remove") path .null)
      = .ok (modifyAt place (fun p => eraseChild p s) t) := by
  have hne : path.isEmpty = false := by simpa using hpath
  unfold apply
  rw [member_op, member_path, decode_remove]
  simp only [hne, hfind]
  rw [target_eq rfl rfl hget]
  rfl

theorem apply_add {t v : Any} {path : Key} (hpath : path ≠ []) (hv : v.isNull = false)
    {f : Found} {place : List Sel} (hfind : find t path = f)
    (hreach : (f.valid || f.distance == 1) = true) (hplace : f.parent = some place) :
    apply t (patchObject (text "add") path v) = insertAt t f place v := by
  have hne : path.isEmpty = false := by simpa using hpath
  unfold apply
  rw [member_op, member_path, member_value, decode_add]
  simp only [hne, hfind, hplace, check_true (show (!v.isNull) = true by simp [hv]),
    check_true hreach]
  rfl

/-- A step that can also be on the way to another place. -/
def Sel.Passable (s : Sel) : Prop := s.Plain ∧ s.token ≠ []

/-- An edit that `apply` carries out when it reads it from a patch. -/
def Edit.Sound (e : Edit) : Prop :=
  match e.leaf with
  | .replace v => v.isNull = false ∧ (∀ s ∈ e.place, s.Plain) ∧ ∀ s ∈ e.place.dropLast, s.token ≠ []
  | .remove s => ∀ s' ∈ e.place ++ [s], s'.Passable
  | .push v => v.isNull = false ∧ ∀ s ∈ e.place, s.Passable
  | .put k v =>
    v.isNull = false ∧ (∀ s ∈ e.place ++ [.member k], s.Passable) ∧
      (e.place.map Sel.token ++ [k]).head? = some k

theorem actualPath_of_ne {path suffix : Key} (h : suffix ≠ []) :
    actualPath path suffix = path ++ slash :: suffix := by
  simp [actualPath, h]

theorem act_replace {place : List Sel} {s : Sel} {t t' v : Any}
    (h : actAt (place ++ [s]) (.replace v) t = some t') :
    ∃ p c, getAt place t = some p ∧ child? p s = some c ∧
      t' = modifyAt place (fun p => setChild p s v) t := by
  rw [actAt_eq, getAt_append] at h
  obtain ⟨c, hc, hact⟩ := Option.bind_eq_some_iff.mp h
  obtain ⟨p, hp, hpc⟩ := Option.bind_eq_some_iff.mp hc
  have hchild : child? p s = some c := by simpa [getAt] using hpc
  refine ⟨p, c, hp, hchild, ?_⟩
  obtain rfl : modifyAt (place ++ [s]) (fun _ => v) t = t' := by simpa [Leaf.act] using hact
  rw [modifyAt_append]
  apply modifyAt_congr hp
  simp [modifyAt, hchild]

theorem act_inv {place : List Sel} {leaf : Leaf} {t t' : Any} (h : actAt place leaf t = some t') :
    ∃ p p', getAt place t = some p ∧ leaf.act p = some p' ∧ t' = modifyAt place (fun _ => p') t := by
  rw [actAt_eq] at h
  obtain ⟨p, hp, hact⟩ := Option.bind_eq_some_iff.mp h
  obtain ⟨p', hp', rfl⟩ := Option.map_eq_some_iff.mp hact
  exact ⟨p, p', hp, hp', rfl⟩

theorem insertAt_push {t v : Any} {f : Found} {place : List Sel} {xs : List Any}
    (hget : getAt place t = some (.array xs)) (hlast : f.tokens.getLast? = some dash) :
    insertAt t f place v = .ok (modifyAt place (fun _ => .array (xs ++ [v])) t) := by
  rw [insertAt, hget]
  change (if f.tokens.getLast? = some dash then _ else _) = _
  rw [if_pos hlast]
  rfl

theorem insertAt_put {t v : Any} {f : Found} {place : List Sel} {ms : List (Key × Any)} {k : Key}
    (hget : getAt place t = some (.object ms)) (hvalid : f.valid = false)
    (hfront : f.tokens.head? = some k) (hk : ms.lookup k = none) :
    insertAt t f place v = .ok (modifyAt place (fun _ => .object (ms ++ [(k, v)])) t) := by
  rw [insertAt, hget]
  change (if f.valid = true then _ else _) = _
  rw [hvalid, if_neg (by simp), hfront]
  change Except.ok (modifyAt place
    (fun p => if (ms.lookup k).isSome then p else .object (ms ++ [(k, v)])) t) = _
  rw [hk]
  rfl

theorem apply_encode_replace {place : List Sel} {v t t' : Any}
    (he : (⟨place, .replace v⟩ : Edit).Sound) (h : actAt place (.replace v) t = some t') :
    apply t (⟨place, .replace v⟩ : Edit).encode = .ok t' := by
  obtain ⟨hv, hplain, hne⟩ := he
  rcases List.eq_nil_or_concat' place with rfl | ⟨place, s, rfl⟩
  · obtain rfl : v = t' := Option.some.inj h
    exact apply_root t v hv
  · obtain ⟨p, c, hp, hchild, rfl⟩ := act_replace h
    have hs : s.Plain := hplain s (by simp)
    have hpass : ∀ s' ∈ place, s'.Plain ∧ s'.token ≠ [] := by
      intro s' hs'
      exact ⟨hplain s' (by simp [hs']), hne s' (by simpa using hs')⟩
    have hfind := find_pathOf hp hpass (plainKey_token hs).1
    rw [seek_cons hchild hs] at hfind
    have hget : getAt (place ++ [s]) t = some c := by simp [getAt_append, hp, getAt, hchild]
    have happly := apply_replace (by simp) hv hfind hget
    simpa only [Edit.encode, pathOf_concat] using happly

theorem apply_encode_remove {place : List Sel} {s : Sel} {t t' : Any}
    (he : (⟨place, .remove s⟩ : Edit).Sound) (h : actAt place (.remove s) t = some t') :
    apply t (⟨place, .remove s⟩ : Edit).encode = .ok t' := by
  obtain ⟨p, p', hp, hact, rfl⟩ := act_inv h
  obtain ⟨c, hchild, rfl⟩ := Option.map_eq_some_iff.mp hact
  have hpass : ∀ s' ∈ place ++ [s], s'.Passable := he
  obtain ⟨hs, hne⟩ := hpass s (by simp)
  have hfind := find_pathOf hp (fun s' hs' => hpass s' (by simp [hs'])) (plainKey_token hs).1
  rw [seek_cons hchild hs] at hfind
  have hget : getAt (place ++ [s]) t = some c := by simp [getAt_append, hp, getAt, hchild]
  have happly := apply_remove (by simp) hfind hget
  have hconst : modifyAt place (fun p => eraseChild p s) t
      = modifyAt place (fun _ => eraseChild p s) t := modifyAt_congr hp rfl
  rw [hconst] at happly
  simpa only [Edit.encode, actualPath_of_ne hne] using happly

theorem apply_encode_push {place : List Sel} {v t t' : Any}
    (he : (⟨place, .push v⟩ : Edit).Sound) (h : actAt place (.push v) t = some t') :
    apply t (⟨place, .push v⟩ : Edit).encode = .ok t' := by
  obtain ⟨p, p', hp, hact, rfl⟩ := act_inv h
  obtain ⟨hv, hpass⟩ := he
  cases p with
  | array xs =>
    obtain rfl : array (xs ++ [v]) = p' := Option.some.inj hact
    have hfind : find t (pathOf place ++ slash :: dash) = _ := find_pathOf hp hpass (by decide)
    have happly := apply_add (by simp) hv hfind rfl rfl
    rw [insertAt_push hp (by simp [seek, plainKey_dash.2])] at happly
    exact happly
  | _ => cases hact

theorem apply_encode_put {place : List Sel} {k : Key} {v t t' : Any}
    (he : (⟨place, .put k v⟩ : Edit).Sound) (h : actAt place (.put k v) t = some t') :
    apply t (⟨place, .put k v⟩ : Edit).encode = .ok t' := by
  obtain ⟨p, p', hp, hact, rfl⟩ := act_inv h
  obtain ⟨hv, hpass, hfront⟩ := he
  cases p with
  | object ms =>
    have hk : ms.lookup k = none := by
      by_contra hsome
      rw [Leaf.act, if_pos (Option.isSome_iff_ne_none.mpr hsome)] at hact
      cases hact
    obtain rfl : object (ms ++ [(k, v)]) = p' := by simpa [Leaf.act, hk] using hact
    obtain ⟨hplain, hne⟩ : (Sel.member k).Passable := hpass _ (by simp)
    have hkey : plainKey k := hplain
    have hseek : seek (place.map Sel.token ++ [k]) [k] place.length (.object ms) place
        = ⟨place.map Sel.token ++ [k], place.length, false, some place, none⟩ := by
      simp [seek, hkey.2, hk]
    have hfind := find_pathOf hp (fun s hs => hpass s (by simp [hs])) hkey.1
    rw [hseek] at hfind
    have happly := apply_add (by simp) hv hfind (by simp [Found.distance]) rfl
    rw [insertAt_put hp rfl hfront hk] at happly
    have hpath : actualPath (pathOf place) k = pathOf place ++ slash :: k := actualPath_of_ne hne
    simpa only [Edit.encode, hpath] using happly
  | _ => cases hact

/-- Every sound edit is carried out by the patch for it. -/
theorem apply_encode {e : Edit} (he : e.Sound) {t t' : Any} (h : actAt e.place e.leaf t = some t') :
    apply t e.encode = .ok t' := by
  obtain ⟨place, leaf⟩ := e
  cases leaf with
  | replace v => exact apply_encode_replace he h
  | remove s => exact apply_encode_remove he h
  | push v => exact apply_encode_push he h
  | put k v => exact apply_encode_put he h

/-- A run of patches is the run of the edits. -/
theorem patchAll_encode {es : List Edit} (hes : ∀ e ∈ es, e.Sound) {t t' : Any}
    (h : actAll es t = some t') : patchAll t (es.map Edit.encode) = (t', none) := by
  induction es generalizing t with
  | nil =>
    obtain rfl : t = t' := Option.some.inj h
    rfl
  | cons e es ih =>
    obtain ⟨d, hd, hrest⟩ := Option.bind_eq_some_iff.mp h
    rw [List.map_cons, patchAll, apply_encode (hes e (by simp)) hd]
    exact ih (fun e he => hes e (by simp [he])) hrest

/-! ## Values whose difference can be undone -/

/-- A key that is found under its own name also on the way to another place. -/
def readable (k : Key) : Bool := decide (plainKey k) && !k.isEmpty

mutual

/-- Every edit between two values can be carried out.  `front` is the first token of the paths to
them, if they are not the roots. -/
def undoable (front : Option Key) : Any → Any → Bool
  | .integer i, .integer i' => i == i' || toUint64 i != toUint64 i'
  | .array xs, .array ys =>
    undoableElems front 0 xs ys
      && (decide (xs.length ≤ ys.length) || decide (ys.length < 2 ^ 31))
      && (ys.drop xs.length).all fun y => !y.isNull
  | .object ms, .object ns =>
    undoableMembers front ms ns
      && (ns.filter fun m => (ms.lookup m.1).isNone).all fun m =>
          !m.2.isNull && readable m.1 && front.all (· == m.1)
  | l, r => l.isNull || !r.isNull

def undoableElems (front : Option Key) : Nat → List Any → List Any → Bool
  | index, x :: xs, y :: ys =>
    (x.agrees y
        || (decide (index < 2 ^ 31) && undoable (some (front.getD (decimal index))) x y))
      && undoableElems front (index + 1) xs ys
  | _, _, _ => true

def undoableMembers (front : Option Key) : List (Key × Any) → List (Key × Any) → Bool
  | [], _ => true
  | (k, v) :: ms, ns =>
    (match ns.lookup k with
      | some v' =>
        v.agrees v'
          || (decide (plainKey k) && (!k.isEmpty || !sameContainer v v')
              && undoable (some (front.getD k)) v v')
      | none => readable k)
      && undoableMembers front ms ns

end

/-- The first token of the path to a place. -/
def frontOf (place : List Sel) : Option Key := (place.map Sel.token).head?

theorem frontOf_concat (place : List Sel) (s : Sel) :
    frontOf (place ++ [s]) = some ((frontOf place).getD s.token) := by
  cases place <;> simp [frontOf]

/-- The edits of the code are the right ones, and can be carried out. -/
def Carried (place : List Sel) (es es' : List Edit) : Prop :=
  es = es' ∧ ∀ e ∈ es', (e.at_ place).Sound

theorem Carried.append {place : List Sel} {es es' fs fs' : List Edit} (h : Carried place es es')
    (h' : Carried place fs fs') : Carried place (es ++ fs) (es' ++ fs') := by
  refine ⟨by rw [h.1, h'.1], ?_⟩
  intro e he
  rcases List.mem_append.mp he with hin | hin
  · exact h.2 e hin
  · exact h'.2 e hin

theorem Carried.under {place : List Sel} {s : Sel} {es es' : List Edit}
    (h : Carried (place ++ [s]) es es') :
    Carried place (es.map (Edit.under s)) (es'.map (Edit.under s)) := by
  refine ⟨by rw [h.1], ?_⟩
  intro e he
  obtain ⟨d, hd, rfl⟩ := List.mem_map.mp he
  rw [Edit.at_under]
  exact h.2 d hd

theorem Carried.same {place : List Sel} {es : List Edit} (h : ∀ e ∈ es, (e.at_ place).Sound) :
    Carried place es es := ⟨rfl, h⟩

/-- Where a pair of values is, as far as their edits depend on it. -/
structure Reached (place : List Sel) (l r : Any) : Prop where
  plain : ∀ s ∈ place, s.Plain
  passed : ∀ s ∈ place.dropLast, s.token ≠ []
  passable : sameContainer l r = true → ∀ s ∈ place, s.token ≠ []

theorem Reached.child {place : List Sel} {l r x y : Any} (h : Reached place l r)
    (hcontainer : sameContainer l r = true) {s : Sel} (hs : s.Plain)
    (hne : sameContainer x y = true → s.token ≠ []) : Reached (place ++ [s]) x y where
  plain := by
    intro s' hs'
    rcases List.mem_append.mp hs' with hin | hin
    · exact h.plain s' hin
    · rw [List.mem_singleton.mp hin]
      exact hs
  passed := by
    intro s' hs'
    exact h.passable hcontainer s' (by simpa using hs')
  passable := by
    intro hxy s' hs'
    rcases List.mem_append.mp hs' with hin | hin
    · exact h.passable hcontainer s' hin
    · rw [List.mem_singleton.mp hin]
      exact hne hxy

/-- What is to be shown of a value, for the others to be made from it. -/
def Carries (l : Any) : Prop :=
  ∀ (place : List Sel) (r : Any), Reached place l r → undoable (frontOf place) l r = true →
    Carried place (edits sameUint64 l r) (edits (· == ·) l r)

theorem sameUint64_self (i : Int64) : sameUint64 i i = true := by simp [sameUint64]

theorem carried_agrees {l r : Any} (hl : l.Proper) (h : l.agrees r = true) (place : List Sel) :
    Carried place (edits sameUint64 l r) (edits (· == ·) l r) := by
  rw [edits_of_agrees _ sameUint64_self hl h, edits_of_agrees _ (by simp) hl h]
  exact Carried.same (by simp)

theorem sound_replace {place : List Sel} {l r : Any} (h : Reached place l r)
    (hr : r.isNull = false) : (Edit.at_ place ⟨[], .replace r⟩).Sound := by
  rw [Edit.at_, List.append_nil]
  exact ⟨hr, h.plain, h.passed⟩

theorem carries_atom {l : Any} (hl : l.Proper) {place : List Sel} {r : Any} (h : Reached place l r)
    (hatom : sameContainer l r = false) (hund : undoable (frontOf place) l r = true) :
    Carried place (edits sameUint64 l r) (edits (· == ·) l r) := by
  by_cases hagree : l.agrees r = true
  · exact carried_agrees hl hagree place
  · have hdiffer : l.agrees r = false := by simpa using hagree
    have heq : edits sameUint64 l r = [⟨[], .replace r⟩] := by
      cases l <;> cases r <;> simp_all [sameContainer, agrees, edits, undoable, sameUint64]
    have hr : r.isNull = false := by
      cases l <;> cases r <;> simp_all [sameContainer, agrees, undoable, isNull]
    rw [heq, edits_eq_replace hatom hdiffer]
    apply Carried.same
    intro e he
    rw [List.mem_singleton.mp he]
    exact sound_replace h hr

/-- The place of a member that is added or removed. -/
theorem passable_concat {place : List Sel} {l r : Any} (h : Reached place l r)
    (hcontainer : sameContainer l r = true) {k : Key} (hk : readable k = true) :
    ∀ s ∈ place ++ [.member k], s.Passable := by
  simp only [readable, Bool.and_eq_true, decide_eq_true_eq] at hk
  intro s hs
  rcases List.mem_append.mp hs with hin | hin
  · exact ⟨h.plain s hin, h.passable hcontainer s hin⟩
  · rw [List.mem_singleton.mp hin]
    exact ⟨hk.1, by simpa [Sel.token] using hk.2⟩

theorem carries_elems {place : List Sel} {l r : Any} (h : Reached place l r)
    (hcontainer : sameContainer l r = true) {xs ys : List Any} (hproper : ∀ x ∈ xs, x.Proper)
    (hxs : ∀ x ∈ xs, Carries x) (index : Nat)
    (hund : undoableElems (frontOf place) index xs ys = true) :
    Carried place (elemEdits sameUint64 index xs ys) (elemEdits (· == ·) index xs ys) := by
  induction xs generalizing ys index with
  | nil => exact Carried.same (by simp [elemEdits])
  | cons x xs ih =>
    cases ys with
    | nil => exact Carried.same (by simp [elemEdits])
    | cons y ys =>
      simp only [undoableElems, Bool.and_eq_true, Bool.or_eq_true, decide_eq_true_eq] at hund
      obtain ⟨hhead, htail⟩ := hund
      rw [elemEdits, elemEdits]
      refine Carried.append (Carried.under ?_)
        (ih (fun z hz => hproper z (by simp [hz])) (fun z hz => hxs z (by simp [hz])) _ htail)
      rcases hhead with hagree | ⟨hindex, hxy⟩
      · exact carried_agrees (hproper x (by simp)) hagree _
      · have hchild : Reached (place ++ [.elem index]) x y :=
          h.child hcontainer hindex fun _ => decimal_ne_nil index
        apply hxs x (by simp) _ _ hchild
        rw [frontOf_concat]
        exact hxy

theorem carries_members {place : List Sel} {l r : Any} (h : Reached place l r)
    (hcontainer : sameContainer l r = true) {ms ns : List (Key × Any)}
    (hproper : ∀ m ∈ ms, m.2.Proper) (hms : ∀ m ∈ ms, Carries m.2)
    (hund : undoableMembers (frontOf place) ms ns = true) :
    Carried place (memberEdits sameUint64 ms ns) (memberEdits (· == ·) ms ns) := by
  induction ms with
  | nil => exact Carried.same (by simp [memberEdits])
  | cons m ms ih =>
    obtain ⟨k, v⟩ := m
    rw [undoableMembers, Bool.and_eq_true] at hund
    obtain ⟨hhead, htail⟩ := hund
    rw [memberEdits, memberEdits]
    refine Carried.append ?_
      (ih (fun m hm => hproper m (by simp [hm])) (fun m hm => hms m (by simp [hm])) htail)
    cases hlookup : ns.lookup k with
    | some v' =>
      simp only [hlookup, Bool.or_eq_true, Bool.and_eq_true, decide_eq_true_eq] at hhead
      apply Carried.under
      rcases hhead with hagree | ⟨⟨hkey, hne⟩, hvv⟩
      · exact carried_agrees (hproper (k, v) (by simp)) hagree _
      · have hplain : (Sel.member k).Plain := hkey
        have hchild : Reached (place ++ [.member k]) v v' := by
          apply h.child hcontainer hplain
          intro hsame
          simpa [hsame, Sel.token] using hne
        apply hms (k, v) (by simp) _ _ hchild
        rw [frontOf_concat]
        exact hvv
    | none =>
      simp only [hlookup] at hhead
      apply Carried.same
      intro e he
      rw [List.mem_singleton.mp he, Edit.at_, List.append_nil]
      exact passable_concat h hcontainer hhead

theorem carries (l : Any) (hl : l.Proper) : Carries l := by
  induction l using induct with
  | array xs ih =>
    intro place r h hund
    cases r with
    | array ys =>
      have hxs := (properAll_iff xs).mp hl
      simp only [undoable, Bool.and_eq_true, Bool.or_eq_true, decide_eq_true_eq,
        List.all_eq_true] at hund
      obtain ⟨⟨helems, hlen⟩, hnull⟩ := hund
      have hpass : ∀ s ∈ place, s.Passable := fun s hs => ⟨h.plain s hs, h.passable rfl s hs⟩
      rw [edits, edits]
      refine Carried.append (Carried.append
        (carries_elems h rfl hxs (fun x hx => ih x hx (hxs x hx)) 0 helems) ?_) ?_
      · apply Carried.same
        intro e he
        obtain ⟨hcount, rfl⟩ := List.mem_replicate.mp he
        rw [Edit.at_, List.append_nil]
        intro s hs
        rcases List.mem_append.mp hs with hin | hin
        · exact hpass s hin
        · rw [List.mem_singleton.mp hin]
          refine ⟨?_, decimal_ne_nil _⟩
          change min xs.length ys.length < 2 ^ 31
          omega
      · apply Carried.same
        intro e he
        obtain ⟨y, hy, rfl⟩ := List.mem_map.mp he
        rw [Edit.at_, List.append_nil]
        refine ⟨?_, hpass⟩
        have hdrop : y ∈ ys.drop xs.length := by
          by_cases hle : xs.length ≤ ys.length
          · rwa [Nat.min_eq_left hle] at hy
          · rw [Nat.min_eq_right (by omega), List.drop_length] at hy
            cases hy
        simpa using hnull y hdrop
    | _ => exact carries_atom hl h rfl hund
  | object ms ih =>
    intro place r h hund
    cases r with
    | object ns =>
      have hms := (properMembers_iff ms).mp hl.2
      simp only [undoable, Bool.and_eq_true, List.all_eq_true] at hund
      obtain ⟨hmembers, hadded⟩ := hund
      rw [edits, edits]
      refine Carried.append (carries_members h rfl hms (fun m hm => ih m hm (hms m hm)) hmembers) ?_
      apply Carried.same
      intro e he
      obtain ⟨m, hm, rfl⟩ := List.mem_map.mp he
      obtain ⟨⟨hnull, hkey⟩, hfront⟩ := hadded m hm
      rw [Edit.at_, List.append_nil]
      refine ⟨by simpa using hnull, passable_concat h rfl hkey, ?_⟩
      cases place with
      | nil => rfl
      | cons s place => simpa [frontOf] using hfront
    | _ => exact carries_atom hl h rfl hund
  | _ => exact fun place r h hund => carries_atom hl h (by cases r <;> rfl) hund

/-! ## The round trip -/

/-- The difference is empty and the values are equal, or patching the first with it reports no error
and makes it equal to the second. -/
def Undoes (lhs rhs : Any) (caseSensitive : Bool) : Prop :=
  if (diff lhs rhs [] caseSensitive).isNull then lhs.agrees rhs = true
  else (patch lhs (diff lhs rhs [] caseSensitive)).2 = none ∧
    (patch lhs (diff lhs rhs [] caseSensitive)).1.agrees rhs = true

instance (lhs rhs : Any) (caseSensitive : Bool) : Decidable (Undoes lhs rhs caseSensitive) :=
  inferInstanceAs (Decidable (ite (_ = true) (_ = true) (_ ∧ _ = true)))

theorem patch_undoes_diff (lhs rhs : Any) (hlhs : lhs.Proper) (hrhs : rhs.Proper)
    (h : undoable none lhs rhs = true) (caseSensitive : Bool) : Undoes lhs rhs caseSensitive := by
  have hreached : Reached [] lhs rhs := ⟨by simp, by simp, by simp⟩
  obtain ⟨heq, hsound⟩ := carries lhs hlhs [] rhs hreached h
  obtain ⟨v, hact, hagree⟩ := edits_settle hlhs hrhs
  have hcreate : createPatches [] [] lhs rhs = (edits (· == ·) lhs rhs).map Edit.encode := by
    rw [← heq]
    exact createPatches_eq lhs [] rhs
  unfold Undoes diff
  rw [hcreate]
  cases hes : edits (· == ·) lhs rhs with
  | nil =>
    rw [hes] at hact
    obtain rfl : lhs = v := Option.some.inj hact
    simpa [isNull] using hagree
  | cons e es =>
    rw [hes] at hact hsound
    have hpatch := patchAll_encode hsound hact
    rw [List.map_cons] at hpatch ⊢
    simp only [isNull, patch, hpatch]
    simpa using hagree

/-- An array that gets shorter, with an object in it, beside a list that gets longer. -/
def trimmed : Any × Any :=
  (.object [(text "a", .array [.object [(text "k", .integer (-1))], .null, .boolean true]),
      (text "b", .array []), (text "c", .null)],
    .object [(text "d", .string (text "new")), (text "b", .array [.integer 3]),
      (text "a", .array [.object [(text "k", .integer 2)]])])

theorem trimmed_undoes : undoable none trimmed.1 trimmed.2 = true ∧ Undoes trimmed.1 trimmed.2 true :=
  ⟨by decide +kernel, patch_undoes_diff _ _ (by simp [trimmed, Proper, ProperAll, ProperMembers]; decide)
    (by simp [trimmed, Proper, ProperAll, ProperMembers]; decide) (by decide +kernel) true⟩

/-- Negative integers are not told apart, a new member of a nested object goes to the object under
the first token, null is not written, and a slash in a key cuts it into two tokens. -/
theorem diff_not_undone :
    ¬ Undoes (.integer (-1)) (.integer (-2)) true ∧
    ¬ Undoes (.object [(text "a", .object [])])
        (.object [(text "a", .object [(text "b", .integer 1)])]) true ∧
    ¬ Undoes (.boolean true) .null true ∧
    ¬ Undoes (.object [(text "a/b", .integer 1)]) (.object [(text "a/b", .integer 2)]) true := by
  decide +kernel

end Nodeoze.Any
