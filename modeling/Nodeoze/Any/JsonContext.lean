import Nodeoze.Any.Stream
import Nodeoze.Lib.Runs

/-!
# The context of the JSON parser

yajl tells what it reads as a sequence of events, and `parser_context` builds the value from them: the
containers that are not complete are on one stack, the keys that wait for a value on another.  A
container that is complete is added to the one below it, or is the root.

A traversal of a value is a sequence of events that tells of it, the members of its objects in any
order.  Whatever is on the stacks, a traversal adds its value to the container on top.
-/

namespace Nodeoze.Any.Json

open Runs

/-- The callbacks of yajl. -/
inductive Event
  | null
  | boolean (b : Bool)
  | integer (i : Int64)
  | double (word : UInt64)
  | string (bytes : List UInt8)
  | startMap
  | mapKey (k : Key)
  | endMap
  | startArray
  | endArray
  deriving DecidableEq, Repr

/-- `parser_context`; `calls` records what `m_on_root_object` is called with, where it is set. -/
structure Context where
  onRootObject : Bool
  keyStack : List Key
  valStack : List Any
  root : Any
  calls : List Any

namespace Context

def create (onRootObject : Bool) (root : Any) : Context := ⟨onRootObject, [], [], root, []⟩

/-- A member without a key is undefined. -/
def add (c : Context) (val : Any) : Option Context :=
  match c.valStack with
  | .array xs :: vals => some { c with valStack := .array (xs ++ [val]) :: vals }
  | .object ms :: vals =>
    match c.keyStack with
    | k :: keys => some { c with valStack := .object (emplace ms k val) :: vals, keyStack := keys }
    | [] => none
  | _ => some c

def pop (c : Context) : Option Context :=
  match c.valStack with
  | [] => none
  | [val] =>
    some { c with root := val, valStack := [],
                  calls := if c.onRootObject then c.calls ++ [val] else c.calls }
  | val :: vals => { c with valStack := vals }.add val

/-- What a callback of yajl does. -/
def feed (c : Context) : Event → Option Context
  | .null => c.add .null
  | .boolean b => c.add (.boolean b)
  | .integer i => c.add (.integer i)
  | .double w => c.add (.floating w)
  | .string bs => c.add (.string bs)
  | .startMap => some { c with valStack := .object [] :: c.valStack }
  | .mapKey k => some { c with keyStack := k :: c.keyStack }
  | .endMap => c.pop
  | .startArray => some { c with valStack := .array [] :: c.valStack }
  | .endArray => c.pop

end Context

/-! ## Traversals -/

mutual

/-- The events that tell of a value. -/
inductive Visits : Any → List Event → Prop
  | null : Visits .null [.null]
  | boolean (b : Bool) : Visits (.boolean b) [.boolean b]
  | integer (i : Int64) : Visits (.integer i) [.integer i]
  | floating (w : UInt64) : Visits (.floating w) [.double w]
  | string (bs : List UInt8) : Visits (.string bs) [.string bs]
  | array {xs : List Any} {es : List Event} : VisitsAll xs es →
      Visits (.array xs) (.startArray :: es ++ [.endArray])
  | object {ms ns : List (Key × Any)} {es : List Event} : ns.Perm ms → VisitsMembers ns es →
      Visits (.object ms) (.startMap :: es ++ [.endMap])

inductive VisitsAll : List Any → List Event → Prop
  | nil : VisitsAll [] []
  | cons {x : Any} {xs : List Any} {es es' : List Event} : Visits x es → VisitsAll xs es' →
      VisitsAll (x :: xs) (es ++ es')

inductive VisitsMembers : List (Key × Any) → List Event → Prop
  | nil : VisitsMembers [] []
  | cons {k : Key} {v : Any} {ms : List (Key × Any)} {es es' : List Event} : Visits v es →
      VisitsMembers ms es' → VisitsMembers ((k, v) :: ms) (.mapKey k :: es ++ es')

end

mutual

/-- There is no blob in a value. -/
def BlobFree : Any → Prop
  | .blob _ => False
  | .array xs => BlobFreeAll xs
  | .object ms => BlobFreeMembers ms
  | _ => True

def BlobFreeAll : List Any → Prop
  | [] => True
  | x :: xs => BlobFree x ∧ BlobFreeAll xs

def BlobFreeMembers : List (Key × Any) → Prop
  | [] => True
  | (_, v) :: ms => BlobFree v ∧ BlobFreeMembers ms

end

mutual

/-- The keys of every object are distinct, as those of a map are. -/
def Distinct : Any → Prop
  | .array xs => DistinctAll xs
  | .object ms => (ms.map Prod.fst).Nodup ∧ DistinctMembers ms
  | _ => True

def DistinctAll : List Any → Prop
  | [] => True
  | x :: xs => Distinct x ∧ DistinctAll xs

def DistinctMembers : List (Key × Any) → Prop
  | [] => True
  | (_, v) :: ms => Distinct v ∧ DistinctMembers ms

end

def isContainer : Any → Bool
  | .array _ => true
  | .object _ => true
  | _ => false

theorem blobFreeAll_iff (xs : List Any) : BlobFreeAll xs ↔ ∀ x ∈ xs, BlobFree x := by
  induction xs with
  | nil => simp [BlobFreeAll]
  | cons x xs ih => simp [BlobFreeAll, ih]

theorem blobFreeMembers_iff (ms : List (Key × Any)) :
    BlobFreeMembers ms ↔ ∀ m ∈ ms, BlobFree m.2 := by
  induction ms with
  | nil => simp [BlobFreeMembers]
  | cons m ms ih => simp [BlobFreeMembers, ih]

theorem distinctAll_iff (xs : List Any) : DistinctAll xs ↔ ∀ x ∈ xs, Distinct x := by
  induction xs with
  | nil => simp [DistinctAll]
  | cons x xs ih => simp [DistinctAll, ih]

theorem distinctMembers_iff (ms : List (Key × Any)) :
    DistinctMembers ms ↔ ∀ m ∈ ms, Distinct m.2 := by
  induction ms with
  | nil => simp [DistinctMembers]
  | cons m ms ih => simp [DistinctMembers, ih]

theorem visitsAll_of_blobFree {xs : List Any} (h : ∀ x ∈ xs, ∃ es, Visits x es) :
    ∃ es, VisitsAll xs es := by
  induction xs with
  | nil => exact ⟨[], .nil⟩
  | cons x xs ih =>
    obtain ⟨es, hes⟩ := h x List.mem_cons_self
    obtain ⟨es', hes'⟩ := ih fun y hy => h y (List.mem_cons_of_mem x hy)
    exact ⟨es ++ es', .cons hes hes'⟩

theorem visitsMembers_of_blobFree {ms : List (Key × Any)} (h : ∀ m ∈ ms, ∃ es, Visits m.2 es) :
    ∃ es, VisitsMembers ms es := by
  induction ms with
  | nil => exact ⟨[], .nil⟩
  | cons m ms ih =>
    obtain ⟨es, hes⟩ := h m List.mem_cons_self
    obtain ⟨es', hes'⟩ := ih fun n hn => h n (List.mem_cons_of_mem m hn)
    exact ⟨.mapKey m.1 :: es ++ es', .cons hes hes'⟩

/-- Every value without blobs has a traversal. -/
theorem exists_visits {x : Any} (hx : BlobFree x) : ∃ es, Visits x es := by
  induction x using induct with
  | null => exact ⟨_, .null⟩
  | boolean b => exact ⟨_, .boolean b⟩
  | integer i => exact ⟨_, .integer i⟩
  | floating w => exact ⟨_, .floating w⟩
  | string bs => exact ⟨_, .string bs⟩
  | blob bs => exact hx.elim
  | array xs ih =>
    obtain ⟨es, hes⟩ := visitsAll_of_blobFree fun x hmem => ih x hmem ((blobFreeAll_iff xs).mp hx x hmem)
    exact ⟨_, .array hes⟩
  | object ms ih =>
    obtain ⟨es, hes⟩ :=
      visitsMembers_of_blobFree fun m hm => ih m hm ((blobFreeMembers_iff ms).mp hx m hm)
    exact ⟨_, .object (List.Perm.refl ms) hes⟩

/-! ## What a traversal builds -/

/-- The value, with the members of its objects in the order in which they were told. -/
def Rebuilt (y x : Any) : Prop := Distinct y ∧ y.equals x = true

/-- The events add the value to the container on top; those of a container leave it there until it is
popped. -/
def Builds (x : Any) (es : List Event) : Prop :=
  ∃ y, Rebuilt y x ∧
    (∀ c : Context, c.valStack ≠ [] → run Context.feed c es = c.add y) ∧
    (isContainer x = true → ∀ c : Context,
      run Context.feed c es = { c with valStack := y :: c.valStack }.pop)

theorem builds_scalar {x : Any} {e : Event} (hrebuilt : Rebuilt x x) (hscalar : isContainer x = false)
    (hfeed : ∀ c : Context, c.feed e = c.add x) : Builds x [e] := by
  refine ⟨x, hrebuilt, fun c _ => ?_, fun h => by rw [hscalar] at h; contradiction⟩
  rw [run_singleton, hfeed]

theorem pop_add (c : Context) (hne : c.valStack ≠ []) (y : Any) :
    { c with valStack := y :: c.valStack }.pop = c.add y := by
  obtain ⟨onRootObject, keys, vals, root, calls⟩ := c
  cases vals with
  | nil => contradiction
  | cons val vals => rfl

theorem builds_container {x y : Any} {es : List Event} (hrebuilt : Rebuilt y x)
    (hrun : ∀ c : Context, run Context.feed c es = { c with valStack := y :: c.valStack }.pop) :
    Builds x es := by
  refine ⟨y, hrebuilt, fun c hne => ?_, fun _ => hrun⟩
  rw [hrun, pop_add c hne]

theorem feed_elems {xs : List Any} (h : ∀ x ∈ xs, ∀ es, Visits x es → Builds x es) {es : List Event}
    (hes : VisitsAll xs es) :
    ∃ ys, List.Forall₂ Rebuilt ys xs ∧ ∀ (c : Context) (done vals : List Any),
      c.valStack = .array done :: vals →
        run Context.feed c es = some { c with valStack := .array (done ++ ys) :: vals } := by
  induction xs generalizing es with
  | nil =>
    cases hes
    refine ⟨[], .nil, fun c done vals hvals => ?_⟩
    rw [List.append_nil, ← hvals]
    rfl
  | cons x xs ih =>
    cases hes with
    | @cons _ _ es es' hx hxs =>
      obtain ⟨y, hy, hadd, -⟩ := h x List.mem_cons_self es hx
      obtain ⟨ys, hys, hrest⟩ := ih (fun z hz => h z (List.mem_cons_of_mem x hz)) hxs
      refine ⟨y :: ys, .cons hy hys, fun c done vals hvals => ?_⟩
      have hhead : run Context.feed c es = some { c with valStack := .array (done ++ [y]) :: vals } := by
        rw [hadd c (by simp [hvals])]
        simp only [Context.add, hvals]
      rw [run_append, hhead, Option.bind_some, hrest _ (done ++ [y]) vals rfl]
      simp

theorem feed_members {ms : List (Key × Any)} (h : ∀ m ∈ ms, ∀ es, Visits m.2 es → Builds m.2 es)
    {es : List Event} (hes : VisitsMembers ms es) :
    ∃ ns, List.Forall₂ (fun n m => n.1 = m.1 ∧ Rebuilt n.2 m.2) ns ms ∧
      ∀ (c : Context) (done : List (Key × Any)) (vals : List Any),
        ((done ++ ms).map Prod.fst).Nodup → c.valStack = .object done :: vals →
          run Context.feed c es = some { c with valStack := .object (done ++ ns) :: vals } := by
  induction ms generalizing es with
  | nil =>
    cases hes
    refine ⟨[], .nil, fun c done vals _ hvals => ?_⟩
    rw [List.append_nil, ← hvals]
    rfl
  | cons m ms ih =>
    cases hes with
    | @cons k v _ es es' hv hms =>
      obtain ⟨w, hw, hadd, -⟩ := h (k, v) List.mem_cons_self es hv
      obtain ⟨ns, hns, hrest⟩ := ih (fun n hn => h n (List.mem_cons_of_mem _ hn)) hms
      refine ⟨(k, w) :: ns, .cons ⟨rfl, hw⟩ hns, fun c done vals hnodup hvals => ?_⟩
      have hfresh : k ∉ done.map Prod.fst := by
        intro hk
        simp only [List.map_append, List.map_cons] at hnodup
        exact (List.nodup_append.mp hnodup).2.2 k hk k List.mem_cons_self rfl
      have hhead : run Context.feed c (.mapKey k :: es)
          = some { c with valStack := .object (done ++ [(k, w)]) :: vals } := by
        change run Context.feed { c with keyStack := k :: c.keyStack } es = _
        rw [hadd _ (by simp [hvals])]
        simp only [Context.add, hvals, emplace_of_not_mem hfresh]
      have hnodup' : ((done ++ [(k, w)] ++ ms).map Prod.fst).Nodup := by simpa using hnodup
      rw [run_append, hhead, Option.bind_some, hrest _ (done ++ [(k, w)]) vals hnodup' rfl]
      simp

theorem rebuilt_array {xs ys : List Any} (h : List.Forall₂ Rebuilt ys xs) :
    Rebuilt (.array ys) (.array xs) := by
  unfold Rebuilt
  rw [Distinct, equals]
  induction h with
  | nil => exact ⟨trivial, rfl⟩
  | cons hy _ ih => exact ⟨⟨hy.1, ih.1⟩, by rw [equalsAll, hy.2, ih.2]; rfl⟩

/-- The members in another order. -/
theorem rebuilt_object {ms ms' ns : List (Key × Any)} (hnodup : (ms.map Prod.fst).Nodup)
    (hperm : ms'.Perm ms)
    (h : List.Forall₂ (fun n m => n.1 = m.1 ∧ Rebuilt n.2 m.2) ns ms') :
    Rebuilt (.object ns) (.object ms) := by
  have hkeys : ns.map Prod.fst = ms'.map Prod.fst := by
    clear hperm
    induction h with
    | nil => rfl
    | cons hn _ ih => rw [List.map_cons, List.map_cons, hn.1, ih]
  have hmem : ∀ n ∈ ns, ∃ m ∈ ms', n.1 = m.1 ∧ Rebuilt n.2 m.2 := by
    intro n hn
    obtain ⟨i, hi, rfl⟩ := List.mem_iff_getElem.mp hn
    have hi' : i < ms'.length := h.length_eq ▸ hi
    exact ⟨ms'[i], List.getElem_mem hi', h.get hi hi'⟩
  constructor
  · refine ⟨?_, ?_⟩
    · rw [hkeys]
      exact (hperm.map Prod.fst).nodup_iff.mpr hnodup
    · rw [distinctMembers_iff]
      intro n hn
      obtain ⟨m, -, -, hrebuilt⟩ := hmem n hn
      exact hrebuilt.1
  · rw [equals, Bool.and_eq_true, beq_iff_eq]
    refine ⟨h.length_eq.trans hperm.length_eq, ?_⟩
    apply equalsMembers_of_lookup
    intro n hn
    obtain ⟨m, hm, hkey, hrebuilt⟩ := hmem n hn
    refine ⟨m.2, ?_, hrebuilt.2⟩
    rw [hkey]
    exact lookup_of_mem hnodup (hperm.mem_iff.mp hm)

/-- Every traversal builds its value, whatever it is told in the middle of. -/
theorem builds_of_visits {x : Any} (hx : Distinct x) {es : List Event} (hes : Visits x es) :
    Builds x es := by
  induction x using induct generalizing es with
  | null =>
    cases hes
    exact builds_scalar ⟨trivial, rfl⟩ rfl fun _ => rfl
  | boolean b =>
    cases hes
    exact builds_scalar ⟨trivial, by simp [equals]⟩ rfl fun _ => rfl
  | integer i =>
    cases hes
    exact builds_scalar ⟨trivial, by simp [equals]⟩ rfl fun _ => rfl
  | floating w =>
    cases hes
    exact builds_scalar ⟨trivial, by simp [equals]⟩ rfl fun _ => rfl
  | string bs =>
    cases hes
    exact builds_scalar ⟨trivial, by simp [equals]⟩ rfl fun _ => rfl
  | blob bs => cases hes
  | array xs ih =>
    cases hes with
    | @array _ es hes =>
      obtain ⟨ys, hys, hrun⟩ := feed_elems
        (fun x hmem es hes => ih x hmem ((distinctAll_iff xs).mp hx x hmem) hes) hes
      apply builds_container (rebuilt_array hys)
      intro c
      have hopen : run Context.feed c (.startArray :: es)
          = some { c with valStack := .array ys :: c.valStack } := by
        change run Context.feed { c with valStack := .array [] :: c.valStack } es = _
        rw [hrun _ [] c.valStack rfl]
        rfl
      rw [run_append, hopen, Option.bind_some, run_singleton]
      rfl
  | object ms ih =>
    cases hes with
    | @object _ ms' es hperm hes =>
      obtain ⟨hnodup, hms⟩ := hx
      have hmem : ∀ m ∈ ms', ∀ es, Visits m.2 es → Builds m.2 es := by
        intro m hm es hes
        have hm' := hperm.mem_iff.mp hm
        exact ih m hm' ((distinctMembers_iff ms).mp hms m hm') hes
      obtain ⟨ns, hns, hrun⟩ := feed_members hmem hes
      apply builds_container (rebuilt_object hnodup hperm hns)
      intro c
      have hnodup' : (([] ++ ms').map Prod.fst).Nodup := (hperm.map Prod.fst).nodup_iff.mpr hnodup
      have hopen : run Context.feed c (.startMap :: es)
          = some { c with valStack := .object ns :: c.valStack } := by
        change run Context.feed { c with valStack := .object [] :: c.valStack } es = _
        rw [hrun _ [] c.valStack hnodup' rfl]
        rfl
      rw [run_append, hopen, Option.bind_some, run_singleton]
      rfl

/-! ## Documents -/

theorem feed_document {x : Any} (hx : Distinct x) (hcontainer : isContainer x = true) {es : List Event}
    (hes : Visits x es) :
    ∃ y, Rebuilt y x ∧ ∀ c : Context, c.onRootObject = true → c.valStack = [] →
      run Context.feed c es = some { c with root := y, calls := c.calls ++ [y] } := by
  obtain ⟨y, hy, -, hpop⟩ := builds_of_visits hx hes
  refine ⟨y, hy, fun c hcall hvals => ?_⟩
  rw [hpop hcontainer c]
  simp [Context.pop, hvals, hcall]

theorem feed_documents {docs : List (Any × List Event)}
    (hdocs : ∀ d ∈ docs, Distinct d.1 ∧ isContainer d.1 = true ∧ Visits d.1 d.2) :
    ∃ ys, List.Forall₂ (fun y d => Rebuilt y d.1) ys docs ∧
      ∀ c : Context, c.onRootObject = true → c.valStack = [] →
        run Context.feed c (docs.flatMap Prod.snd)
          = some { c with root := ys.getLast?.getD c.root, calls := c.calls ++ ys } := by
  induction docs with
  | nil =>
    refine ⟨[], .nil, fun c _ _ => ?_⟩
    simp [run]
  | cons d docs ih =>
    obtain ⟨hx, hcontainer, hes⟩ := hdocs d List.mem_cons_self
    obtain ⟨y, hy, hfirst⟩ := feed_document hx hcontainer hes
    obtain ⟨ys, hys, hrest⟩ := ih fun d' hd' => hdocs d' (List.mem_cons_of_mem d hd')
    refine ⟨y :: ys, .cons hy hys, fun c hcall hvals => ?_⟩
    rw [List.flatMap_cons, run_append, hfirst c hcall hvals, Option.bind_some]
    rw [hrest { c with root := y, calls := c.calls ++ [y] } hcall hvals]
    simp [List.getLast?_cons]

/-- Documents are told one after another, from an empty context: the handler is called with each of
them once, in order, the last one is the root, and nothing stays on the stacks. -/
theorem documents_rebuilt (root : Any) (docs : List (Any × List Event))
    (hdocs : ∀ d ∈ docs, Distinct d.1 ∧ isContainer d.1 = true ∧ Visits d.1 d.2) :
    ∃ ys, List.Forall₂ (fun y d => Rebuilt y d.1) ys docs ∧
      run Context.feed (.create true root) (docs.flatMap Prod.snd)
        = some ⟨true, [], [], ys.getLast?.getD root, ys⟩ := by
  obtain ⟨ys, hys, hrun⟩ := feed_documents hdocs
  exact ⟨ys, hys, hrun (.create true root) rfl rfl⟩

/-- An object whose second member is told first, and an array. -/
def twoDocuments : List (Any × List Event) :=
  [(.object [([97], .array [.integer 1, .object []]), ([98], .null)],
      [.startMap, .mapKey [98], .null, .mapKey [97], .startArray, .integer 1, .startMap, .endMap,
        .endArray, .endMap]),
    (.array [.boolean true], [.startArray, .boolean true, .endArray])]

theorem visits_twoDocuments :
    ∀ d ∈ twoDocuments, Distinct d.1 ∧ isContainer d.1 = true ∧ Visits d.1 d.2 := by
  intro d hd
  simp only [twoDocuments, List.mem_cons, List.not_mem_nil, or_false] at hd
  rcases hd with rfl | rfl
  · refine ⟨by simp [Distinct, DistinctMembers, DistinctAll], rfl, ?_⟩
    have hempty : Visits (.object []) [.startMap, .endMap] := .object (.refl _) .nil
    have harray : Visits (.array [.integer 1, .object []])
        [.startArray, .integer 1, .startMap, .endMap, .endArray] :=
      .array (.cons (.integer 1) (.cons hempty .nil))
    exact .object (.swap _ _ _) (.cons .null (.cons harray .nil))
  · exact ⟨by simp [Distinct, DistinctAll], rfl, .array (.cons (.boolean true) .nil)⟩

theorem twoDocuments_rebuilt :
    ∃ ys, List.Forall₂ (fun y d => Rebuilt y d.1) ys twoDocuments ∧
      run Context.feed (.create true .null) (twoDocuments.flatMap Prod.snd)
        = some ⟨true, [], [], ys.getLast?.getD .null, ys⟩ :=
  documents_rebuilt .null twoDocuments visits_twoDocuments

end Nodeoze.Any.Json
