import Nodeoze.Bstream.Primitives

/-!
# The types and values that a bstream carries

`Ty` is the type structure the templates of `obstream.h`, `ibstream.h` and `stdlib/` cover, `Val`
the values.  A value knows the static type of each of its integers and pointers, because the
overloads that write it are selected by these; what a container is (a vector, a set, a map) only
matters to the reader.

A shared pointer is a node `shared held addr v`: the static type of the pointer, the address of
the object, and the object.  A finite acyclic object graph is such a tree in which equal addresses
carry equal objects.
-/

namespace Nodeoze.Bstream

/-- The sequence containers. -/
inductive Sequence
  | vector
  | list
  | deque
  | forwardList
  deriving DecidableEq, Repr

/-- The associative containers, each with the comparison it is instantiated with. -/
inductive Assoc
  | ordered (less : Nat)
  | orderedMulti (less : Nat)
  | unordered (equal : Nat)
  | unorderedMulti
  deriving DecidableEq, Repr

/-- The underlying types of enumerations. -/
inductive Underlying
  | bool
  | int (sg : Bool) (w : Width)
  deriving DecidableEq, Repr

inductive Ty
  | bool
  | int (sg : Bool) (w : Width)
  | enum (u : Underlying)
  | float
  | double
  | string
  | buffer
  | pair (a b : Ty)
  | tuple (ts : List Ty)
  | seq (k : Sequence) (t : Ty)
  | set (k : Assoc) (t : Ty)
  | map (k : Assoc) (kt vt : Ty)
  | cls (c : Nat)
  | uniquePtr (t : Ty)
  | sharedPtr (t : Ty)

inductive Val
  | bool (b : Bool)
  | int (sg : Bool) (w : Width) (i : Int)
  | float (word : Nat)
  | double (word : Nat)
  | string (bs : List UInt8)
  | buffer (bs : List UInt8)
  | seq (vs : List Val)
  | obj (c : Nat) (parts : List Val)
  | null
  | own (held : Ty) (v : Val)
  | shared (held : Ty) (addr : Nat) (v : Val)

mutual

/-- Equality of types, as `typeid` compares them. -/
def Ty.same : Ty → Ty → Bool
  | .bool, .bool => true
  | .int s w, .int s' w' => s == s' && w == w'
  | .enum u, .enum u' => u == u'
  | .float, .float => true
  | .double, .double => true
  | .string, .string => true
  | .buffer, .buffer => true
  | .pair a b, .pair a' b' => a.same a' && b.same b'
  | .tuple ts, .tuple ts' => Ty.sameList ts ts'
  | .seq k t, .seq k' t' => k == k' && t.same t'
  | .set k t, .set k' t' => k == k' && t.same t'
  | .map k a b, .map k' a' b' => k == k' && a.same a' && b.same b'
  | .cls c, .cls c' => c == c'
  | .uniquePtr t, .uniquePtr t' => t.same t'
  | .sharedPtr t, .sharedPtr t' => t.same t'
  | _, _ => false

def Ty.sameList : List Ty → List Ty → Bool
  | [], [] => true
  | t :: ts, t' :: ts' => t.same t' && Ty.sameList ts ts'
  | _, _ => false

end

mutual

theorem Ty.same_self : ∀ t : Ty, t.same t = true
  | .bool | .float | .double | .string | .buffer => rfl
  | .int _ _ | .enum _ | .cls _ => by simp [Ty.same]
  | .pair a b => by simp [Ty.same, Ty.same_self a, Ty.same_self b]
  | .tuple ts => by simp [Ty.same, Ty.sameList_self ts]
  | .seq _ t => by simp [Ty.same, Ty.same_self t]
  | .set _ t => by simp [Ty.same, Ty.same_self t]
  | .map _ a b => by simp [Ty.same, Ty.same_self a, Ty.same_self b]
  | .uniquePtr t => by simp [Ty.same, Ty.same_self t]
  | .sharedPtr t => by simp [Ty.same, Ty.same_self t]

theorem Ty.sameList_self : ∀ ts : List Ty, Ty.sameList ts ts = true
  | [] => rfl
  | t :: ts => by simp [Ty.sameList, Ty.same_self t, Ty.sameList_self ts]

end

namespace Val

mutual

/-- The nesting depth of a value. -/
def depth : Val → Nat
  | .seq vs => depthList vs + 1
  | .obj _ parts => depthList parts + 1
  | .own _ v => depth v + 1
  | .shared _ _ v => depth v + 1
  | _ => 1

def depthList : List Val → Nat
  | [] => 0
  | v :: vs => max (depth v) (depthList vs)

end

mutual

/-- The shared objects of a value: the address and the object of every shared pointer in it. -/
def nodes : Val → List (Nat × Val)
  | .seq vs => nodesList vs
  | .obj _ parts => nodesList parts
  | .own _ v => nodes v
  | .shared _ a v => nodes v ++ [(a, v)]
  | _ => []

def nodesList : List Val → List (Nat × Val)
  | [] => []
  | v :: vs => nodes v ++ nodesList vs

end

mutual

/-- Move every shared object to a new address. -/
def rename (f : Nat → Nat) : Val → Val
  | .seq vs => .seq (renameList f vs)
  | .obj c parts => .obj c (renameList f parts)
  | .own t v => .own t (rename f v)
  | .shared t a v => .shared t (f a) (rename f v)
  | .bool b => .bool b
  | .int sg w i => .int sg w i
  | .float n => .float n
  | .double n => .double n
  | .string bs => .string bs
  | .buffer bs => .buffer bs
  | .null => .null

def renameList (f : Nat → Nat) : List Val → List Val
  | [] => []
  | v :: vs => rename f v :: renameList f vs

end

/-- The contents of a value, addresses forgotten. -/
def erase (v : Val) : Val := v.rename fun _ => 0

@[simp] theorem renameList_eq_map (f : Nat → Nat) (vs : List Val) :
    renameList f vs = vs.map (rename f) := by
  induction vs with
  | nil => rfl
  | cons v vs ih => simp [renameList, ih]

@[simp] theorem nodesList_eq_flatMap (vs : List Val) : nodesList vs = vs.flatMap nodes := by
  induction vs with
  | nil => rfl
  | cons v vs ih => simp [nodesList, ih]

theorem depth_le_of_mem {v : Val} {vs : List Val} (h : v ∈ vs) : depth v ≤ depthList vs := by
  induction vs with
  | nil => cases h
  | cons u us ih =>
    simp only [depthList]
    rcases List.mem_cons.mp h with rfl | h
    · omega
    · have := ih h; omega

/-- Induction over values, with the children of a node as a list. -/
@[induction_eliminator, elab_as_elim]
theorem induct {P : Val → Prop} (bool : ∀ b, P (.bool b)) (int : ∀ sg w i, P (.int sg w i))
    (float : ∀ n, P (.float n)) (double : ∀ n, P (.double n)) (string : ∀ bs, P (.string bs))
    (buffer : ∀ bs, P (.buffer bs)) (seq : ∀ vs, (∀ v ∈ vs, P v) → P (.seq vs))
    (obj : ∀ c parts, (∀ v ∈ parts, P v) → P (.obj c parts)) (null : P .null)
    (own : ∀ t v, P v → P (.own t v)) (shared : ∀ t a v, P v → P (.shared t a v)) (v : Val) :
    P v :=
  @Val.rec P (fun vs => ∀ v ∈ vs, P v) bool int float double string buffer seq obj null
    own shared (fun _ h => nomatch h)
    (fun _ _ hv hvs => List.forall_mem_cons.mpr ⟨hv, hvs⟩) v

theorem rename_rename (f g : Nat → Nat) (v : Val) : (v.rename f).rename g = v.rename (g ∘ f) := by
  induction v with
  | seq vs ih => simpa [rename] using ih
  | obj c parts ih => simpa [rename] using ih
  | own t v ih => simpa [rename] using ih
  | shared t a v ih => simpa [rename] using ih
  | _ => rfl

@[simp] theorem erase_rename (f : Nat → Nat) (v : Val) : (v.rename f).erase = v.erase :=
  rename_rename f _ v

theorem rename_congr {f g : Nat → Nat} {v : Val} (h : ∀ n ∈ v.nodes, f n.1 = g n.1) :
    v.rename f = v.rename g := by
  induction v with
  | seq vs ih =>
    simp only [rename, renameList_eq_map, seq.injEq, List.map_inj_left]
    intro v hv
    exact ih v hv fun n hn => h n (by simpa [nodes] using ⟨v, hv, hn⟩)
  | obj c parts ih =>
    simp only [rename, renameList_eq_map, obj.injEq, true_and, List.map_inj_left]
    intro v hv
    exact ih v hv fun n hn => h n (by simpa [nodes] using ⟨v, hv, hn⟩)
  | own t v ih => simp only [rename, ih fun n hn => h n (by simpa [nodes] using hn)]
  | shared t a v ih =>
    have ha : f a = g a := h (a, v) (by simp [nodes])
    simp only [rename, ha, ih fun n hn => h n (by simp [nodes, hn])]
  | _ => rfl

theorem rename_of_nodes_nil {v : Val} (h : v.nodes = []) (f : Nat → Nat) : v.rename f = v := by
  induction v with
  | seq vs ih =>
    simp only [nodes, nodesList_eq_flatMap, List.flatMap_eq_nil_iff] at h
    have hmap : vs.map (rename f) = vs.map id :=
      List.map_congr_left fun v hv => ih v hv (h v hv)
    rw [rename, renameList_eq_map, hmap, List.map_id]
  | obj c parts ih =>
    simp only [nodes, nodesList_eq_flatMap, List.flatMap_eq_nil_iff] at h
    have hmap : parts.map (rename f) = parts.map id :=
      List.map_congr_left fun v hv => ih v hv (h v hv)
    rw [rename, renameList_eq_map, hmap, List.map_id]
  | own t v ih => simp only [rename, ih (by simpa [nodes] using h)]
  | shared t a v ih => simp [nodes] at h
  | _ => rfl

theorem nodes_rename (f : Nat → Nat) (v : Val) :
    (v.rename f).nodes = v.nodes.map fun n => (f n.1, n.2.rename f) := by
  induction v with
  | seq vs ih =>
    simp only [rename, renameList_eq_map, nodes, nodesList_eq_flatMap, List.flatMap_map,
      List.map_flatMap]
    exact List.flatMap_congr fun v hv => ih v hv
  | obj c parts ih =>
    simp only [rename, renameList_eq_map, nodes, nodesList_eq_flatMap, List.flatMap_map,
      List.map_flatMap]
    exact List.flatMap_congr fun v hv => ih v hv
  | own t v ih => simpa [rename, nodes] using ih
  | shared t a v ih => simp [rename, nodes, ih]
  | _ => rfl

/-- A value without shared pointers is determined by its contents. -/
theorem eq_of_erase_eq {v v' : Val} (h : v'.erase = v.erase) (hv : v.nodes = []) : v' = v := by
  have hn : v'.nodes = [] := by
    have := nodes_rename (fun _ => 0) v'
    rw [show v'.rename (fun _ => 0) = v.erase from h, erase, rename_of_nodes_nil hv, hv] at this
    exact List.map_eq_nil_iff.mp this.symm
  rwa [erase, erase, rename_of_nodes_nil hv, rename_of_nodes_nil hn] at h

/-- An object lies strictly below every pointer to it. -/
theorem depth_lt_of_mem_nodes {v : Val} {n : Nat × Val} (h : n ∈ v.nodes) :
    n.2.depth < v.depth := by
  induction v with
  | seq vs ih =>
    simp only [nodes, nodesList_eq_flatMap, List.mem_flatMap] at h
    obtain ⟨v, hv, hn⟩ := h
    have h1 := ih v hv hn
    have h2 := depth_le_of_mem hv
    simp only [depth]
    omega
  | obj c parts ih =>
    simp only [nodes, nodesList_eq_flatMap, List.mem_flatMap] at h
    obtain ⟨v, hv, hn⟩ := h
    have h1 := ih v hv hn
    have h2 := depth_le_of_mem hv
    simp only [depth]
    omega
  | own t v ih =>
    have := ih (by simpa [nodes] using h)
    simp only [depth]
    omega
  | shared t a v ih =>
    simp only [nodes, List.mem_append, List.mem_singleton] at h
    simp only [depth]
    rcases h with h | rfl
    · have := ih h; omega
    · exact Nat.lt_succ_self _
  | _ => simp [nodes] at h

/-- Equal addresses carry the objects of one heap. -/
def Coherent (heap : Nat → Val) (v : Val) : Prop := ∀ n ∈ v.nodes, heap n.1 = n.2

/-- In a coherent value no object contains a pointer to itself. -/
theorem Coherent.not_mem_self {heap : Nat → Val} {v : Val} {a : Nat} (h : Coherent heap v)
    (ha : heap a = v) : ∀ n ∈ v.nodes, n.1 ≠ a := by
  intro n hn hna
  have h1 := depth_lt_of_mem_nodes hn
  have h2 : n.2 = v := by rw [← h n hn, hna, ha]
  rw [h2] at h1
  exact lt_irrefl _ h1

end Val

end Nodeoze.Bstream
