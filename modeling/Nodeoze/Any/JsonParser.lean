import Mathlib.Data.FinEnum
import Nodeoze.Any.JsonContext
import Nodeoze.Lib.JsonText

/-!
# The JSON parser

`parser_context::process` hands the bytes to yajl, which tells the context what it reads.  yajl is not
part of the program: it has a state, and tells events and a status.  After an error the context takes a
new handle, and keeps what is on its stacks.

`json::inflate` is one call to `process`.
-/

namespace Nodeoze.Any.Json

open Runs JsonText

/-- A number with neither a point nor an exponent is an integer. -/
inductive Number
  | integer (i : Int64)
  | double (word : UInt64)

mutual

/-- The events of a text. -/
def told : JsonTree Number → List Event
  | .null => [.null]
  | .boolean b => [.boolean b]
  | .number (.integer i) => [.integer i]
  | .number (.double w) => [.double w]
  | .string bs => [.string bs]
  | .array js => .startArray :: toldElems js ++ [.endArray]
  | .object ms => .startMap :: toldMembers ms ++ [.endMap]

def toldElems : List (JsonTree Number) → List Event
  | [] => []
  | j :: js => told j ++ toldElems js

def toldMembers : List (Key × JsonTree Number) → List Event
  | [] => []
  | (k, j) :: ms => .mapKey k :: told j ++ toldMembers ms

end

/-- Where a key is written more than once, the object has one of its members. -/
structure Picks (ms ns : List (Key × Any)) : Prop where
  nodup : (ms.map Prod.fst).Nodup
  mem : ∀ m ∈ ms, m ∈ ns
  keys : ∀ n ∈ ns, n.1 ∈ ms.map Prod.fst

mutual

/-- The value is what the text stands for. -/
def Means : JsonTree Number → Any → Prop
  | .null, x => x = .null
  | .boolean b, x => x = .boolean b
  | .number (.integer i), x => x = .integer i
  | .number (.double w), x => x = .floating w
  | .string bs, x => x = .string bs
  | .array js, x => ∃ xs, x = .array xs ∧ MeansAll js xs
  | .object ms, x => ∃ ns told, x = .object ns ∧ MeansMembers ms told ∧ Picks ns told

def MeansAll : List (JsonTree Number) → List Any → Prop
  | [], xs => xs = []
  | j :: js, xs => ∃ y ys, xs = y :: ys ∧ Means j y ∧ MeansAll js ys

def MeansMembers : List (Key × JsonTree Number) → List (Key × Any) → Prop
  | [], ns => ns = []
  | (k, j) :: ms, ns => ∃ y ys, ns = (k, y) :: ys ∧ Means j y ∧ MeansMembers ms ys

end

/-! ## What the events of a text build -/

/-- The events add the value to the container on top; those of a container leave it there until it is
popped. -/
structure Gives (container : Bool) (es : List Event) (y : Any) : Prop where
  inner : ∀ c : Context, (container = true → c.valStack ≠ []) → run Context.feed c es = c.add y
  outer : container = true → ∀ c : Context,
    run Context.feed c es = { c with valStack := y :: c.valStack }.pop

theorem gives_scalar {e : Event} {y : Any} (hfeed : ∀ c : Context, c.feed e = c.add y) :
    Gives false [e] y := by
  refine ⟨fun c _ => ?_, by intro h; contradiction⟩
  rw [run_singleton, hfeed]

theorem gives_container {es : List Event} {y : Any}
    (hrun : ∀ c : Context, run Context.feed c es = { c with valStack := y :: c.valStack }.pop) :
    Gives true es y := by
  refine ⟨fun c hne => ?_, fun _ => hrun⟩
  rw [hrun, pop_add c (hne rfl)]

/-- `emplace` of the members one after another. -/
def emplaceAll (ms : List (Key × Any)) : List (Key × Any) → List (Key × Any)
  | [] => ms
  | (k, v) :: ns => emplaceAll (emplace ms k v) ns

theorem picks_emplace {ms ns : List (Key × Any)} (h : Picks ms ns) (k : Key) (v : Any) :
    Picks (emplace ms k v) (ns ++ [(k, v)]) := by
  by_cases hk : k ∈ ms.map Prod.fst
  · have hsame : emplace ms k v = ms := by
      rw [emplace, if_pos]
      rw [Option.isSome_iff_ne_none]
      intro hnone
      exact lookup_eq_none_iff_keys.mp hnone hk
    rw [hsame]
    refine ⟨h.nodup, fun m hm => List.mem_append_left _ (h.mem m hm), fun n hn => ?_⟩
    rcases List.mem_append.mp hn with hn | hn
    · exact h.keys n hn
    · rw [List.mem_singleton.mp hn]
      exact hk
  · rw [emplace_of_not_mem hk]
    refine ⟨?_, fun m hm => ?_, fun n hn => ?_⟩
    · rw [List.map_append, List.nodup_append]
      refine ⟨h.nodup, List.nodup_singleton k, ?_⟩
      rintro key hkey key' hkey' rfl
      rw [List.map_cons, List.map_nil, List.mem_singleton] at hkey'
      rw [hkey'] at hkey
      exact hk hkey
    · rcases List.mem_append.mp hm with hm | hm
      · exact List.mem_append_left _ (h.mem m hm)
      · exact List.mem_append_right _ hm
    · rw [List.map_append]
      rcases List.mem_append.mp hn with hn | hn
      · exact List.mem_append_left _ (h.keys n hn)
      · exact List.mem_append_right _ (List.mem_map_of_mem hn)

theorem picks_emplaceAll {ms ns : List (Key × Any)} (h : Picks ms ns) (told : List (Key × Any)) :
    Picks (emplaceAll ms told) (ns ++ told) := by
  induction told generalizing ms ns with
  | nil => rwa [List.append_nil]
  | cons m told ih =>
    obtain ⟨k, v⟩ := m
    rw [List.append_cons]
    exact ih (picks_emplace h k v)

/-- The value of a text, which its events give. -/
def Built (j : JsonTree Number) : Prop := ∃ y, Means j y ∧ Gives j.isContainer (told j) y

theorem feed_toldElems {js : List (JsonTree Number)} (hjs : ∀ j ∈ js, Built j) :
    ∃ ys, MeansAll js ys ∧ ∀ (c : Context) (done vals : List Any), c.valStack = .array done :: vals →
      run Context.feed c (toldElems js) = some { c with valStack := .array (done ++ ys) :: vals } := by
  induction js with
  | nil =>
    refine ⟨[], by rw [MeansAll], fun c done vals hvals => ?_⟩
    rw [List.append_nil, ← hvals, toldElems]
    rfl
  | cons j js ih =>
    obtain ⟨y, hy, hadd, -⟩ := hjs j List.mem_cons_self
    obtain ⟨ys, hys, hrest⟩ := ih fun i hi => hjs i (List.mem_cons_of_mem j hi)
    refine ⟨y :: ys, by rw [MeansAll]; exact ⟨y, ys, rfl, hy, hys⟩, fun c done vals hvals => ?_⟩
    have hhead : run Context.feed c (told j)
        = some { c with valStack := .array (done ++ [y]) :: vals } := by
      rw [hadd c fun _ => by simp [hvals]]
      simp only [Context.add, hvals]
    rw [toldElems, run_append, hhead, Option.bind_some, hrest _ (done ++ [y]) vals rfl]
    simp

theorem feed_toldMembers {ms : List (Key × JsonTree Number)} (hms : ∀ m ∈ ms, Built m.2) :
    ∃ ns, MeansMembers ms ns ∧ ∀ (c : Context) (done : List (Key × Any)) (vals : List Any),
      c.valStack = .object done :: vals →
        run Context.feed c (toldMembers ms)
          = some { c with valStack := .object (emplaceAll done ns) :: vals } := by
  induction ms with
  | nil =>
    refine ⟨[], by rw [MeansMembers], fun c done vals hvals => ?_⟩
    rw [emplaceAll, ← hvals, toldMembers]
    rfl
  | cons m ms ih =>
    obtain ⟨k, j⟩ := m
    obtain ⟨y, hy, hadd, -⟩ := hms (k, j) List.mem_cons_self
    obtain ⟨ns, hns, hrest⟩ := ih fun n hn => hms n (List.mem_cons_of_mem _ hn)
    refine ⟨(k, y) :: ns, by rw [MeansMembers]; exact ⟨y, ns, rfl, hy, hns⟩,
      fun c done vals hvals => ?_⟩
    have hhead : run Context.feed c (.mapKey k :: told j)
        = some { c with valStack := .object (emplace done k y) :: vals } := by
      change run Context.feed { c with keyStack := k :: c.keyStack } (told j) = _
      rw [hadd _ fun _ => by simp [hvals]]
      simp only [Context.add, hvals]
    rw [toldMembers, run_append, hhead, Option.bind_some, hrest _ (emplace done k y) vals rfl,
      emplaceAll]

/-- Every text gives what it stands for, whatever it is told in the middle of. -/
theorem built (j : JsonTree Number) : Built j := by
  induction j using JsonTree.induct with
  | null => exact ⟨.null, by rw [Means], gives_scalar fun _ => rfl⟩
  | boolean b => exact ⟨.boolean b, by rw [Means], gives_scalar fun _ => rfl⟩
  | number n =>
    cases n with
    | integer i => exact ⟨.integer i, by rw [Means], gives_scalar fun _ => rfl⟩
    | double w => exact ⟨.floating w, by rw [Means], gives_scalar fun _ => rfl⟩
  | string bs => exact ⟨.string bs, by rw [Means], gives_scalar fun _ => rfl⟩
  | array js ih =>
    obtain ⟨ys, hys, hrun⟩ := feed_toldElems ih
    refine ⟨.array ys, by rw [Means]; exact ⟨ys, rfl, hys⟩, gives_container fun c => ?_⟩
    have hopen : run Context.feed c (.startArray :: toldElems js)
        = some { c with valStack := .array ys :: c.valStack } := by
      change run Context.feed { c with valStack := .array [] :: c.valStack } (toldElems js) = _
      rw [hrun _ [] c.valStack rfl]
      rfl
    rw [told, run_append, hopen, Option.bind_some, run_singleton]
    rfl
  | object ms ih =>
    obtain ⟨ns, hns, hrun⟩ := feed_toldMembers ih
    have hnil : Picks [] [] := ⟨List.nodup_nil, by simp, by simp⟩
    have hpicks : Picks (emplaceAll [] ns) ns := picks_emplaceAll hnil ns
    refine ⟨.object (emplaceAll [] ns), by rw [Means]; exact ⟨_, ns, rfl, hns, hpicks⟩,
      gives_container fun c => ?_⟩
    have hopen : run Context.feed c (.startMap :: toldMembers ms)
        = some { c with valStack := .object (emplaceAll [] ns) :: c.valStack } := by
      change run Context.feed { c with valStack := .object [] :: c.valStack } (toldMembers ms) = _
      rw [hrun _ [] c.valStack rfl]
    rw [told, run_append, hopen, Option.bind_some, run_singleton]
    rfl

/-- A value is an array, an object or neither, as the text that stands for it is. -/
def headOfAny : Any → Head
  | .array _ => .array
  | .object _ => .object
  | _ => .scalar

theorem head_of_means {i : JsonTree Number} {x : Any} (h : Means i x) : headOfAny x = i.head := by
  cases i with
  | null =>
    rw [Means] at h
    rw [h]
    rfl
  | boolean b =>
    rw [Means] at h
    rw [h]
    rfl
  | number n =>
    cases n <;> rw [Means] at h <;> rw [h] <;> rfl
  | string bs =>
    rw [Means] at h
    rw [h]
    rfl
  | array js =>
    rw [Means] at h
    obtain ⟨xs, rfl, -⟩ := h
    rfl
  | object ms =>
    rw [Means] at h
    obtain ⟨ns, told, rfl, -⟩ := h
    rfl

/-! ## The parser -/

/-- yajl: the handle that `yajl_alloc` returns, and what `yajl_parse` tells of the bytes it is given; no
handle is an error. -/
structure Yajl (σ : Type) where
  alloc : σ
  parse : σ → List UInt8 → List Event × Option σ

structure Parser (σ : Type) where
  context : Context
  handle : σ

variable {σ : Type}

namespace Yajl

variable (Y : Yajl σ) (L : Lexemes Number)

/-- What is told of a document that a new handle is given.  What stands at the top and is neither an array
nor an object may not be told yet. -/
def TellsDocument (s : List UInt8) : Prop :=
  ∀ j, Document L j s → ∃ i h es, Document L i s ∧ Y.parse Y.alloc s = (es, some h) ∧
    es <+: told i ∧ (i.isContainer = true → es = told i)

/-- A new handle tells the events of some values, in their order, until it stops. -/
def TellsValues (s : List UInt8) : Prop :=
  ∃ js : List (JsonTree Number), (Y.parse Y.alloc s).1 <+: js.flatMap told

end Yajl

/-- Strings without escapes, and numbers that are digits. -/
def plainLexemes : Lexemes Number where
  number t :=
    if t ≠ [] ∧ ∀ b ∈ t, 0x30 ≤ b ∧ b ≤ 0x39 then
      some (.integer (Int64.ofNat (t.foldl (fun n b => 10 * n + (b.toNat - 0x30)) 0)))
    else none
  string := some
  number_ne_nil := rfl
  number_numeric t n h b hb := by
    split at h
    · next hdigits => simp [isNumeric, (hdigits.2 b hb).1, (hdigits.2 b hb).2]
    · contradiction

/-- yajl, as far as the grammar says what it does: of a text that is no document it tells nothing, but for
`[,`. -/
noncomputable def grammarYajl (L : Lexemes Number) : Yajl Unit where
  alloc := ()
  parse _ s :=
    open Classical in
    if h : ∃ j, Document L j s then (told h.choose, some ())
    else if s = [openArray, comma] then ([.startArray], none)
    else ([], none)

theorem grammarYajl_tells (L : Lexemes Number) (s : List UInt8) :
    (grammarYajl L).TellsDocument L s := by
  intro j hj
  have hex : ∃ j, Document L j s := ⟨j, hj⟩
  refine ⟨hex.choose, (), told hex.choose, hex.choose_spec, ?_, List.prefix_refl _, fun _ => rfl⟩
  simp only [grammarYajl]
  rw [dif_pos hex]

namespace Parser

variable (Y : Yajl σ)

def create (onRootObject : Bool) (root : Any) : Parser σ := ⟨.create onRootObject root, Y.alloc⟩

/-- `parser_context::reset` leaves the stacks as they are. -/
def reset (p : Parser σ) : Parser σ := { p with handle := Y.alloc }

/-- With the parser, whether an error is returned. -/
def process (p : Parser σ) (buf : List UInt8) : Option (Parser σ × Bool) :=
  (run Context.feed p.context (Y.parse p.handle buf).1).map fun c =>
    match (Y.parse p.handle buf).2 with
    | some h => (⟨c, h⟩, false)
    | none => (reset Y ⟨c, p.handle⟩, true)

end Parser

/-- `json::inflate`: the root, and what is returned. -/
def inflate (Y : Yajl σ) (root : Any) (s : List UInt8) : Option (Any × Bool) :=
  (Parser.process Y (Parser.create Y false root) s).map fun r =>
    if r.2 then (.null, false) else (r.1.context.root, true)

/-! ## What is open -/

def opened (es : List Event) : Nat := es.count .startArray + es.count .startMap

def closed (es : List Event) : Nat := es.count .endArray + es.count .endMap

theorem opened_append (es es' : List Event) : opened (es ++ es') = opened es + opened es' := by
  rw [opened, opened, opened, List.count_append, List.count_append]
  omega

theorem closed_append (es es' : List Event) : closed (es ++ es') = closed es + closed es' := by
  rw [closed, closed, closed, List.count_append, List.count_append]
  omega

theorem add_keeps {c c' : Context} {y : Any} (h : c.add y = some c') :
    c'.valStack.length = c.valStack.length ∧ c'.root = c.root := by
  unfold Context.add at h
  split at h
  · next hvals =>
    obtain rfl := Option.some.inj h
    simp [hvals]
  · next hvals =>
    split at h
    · obtain rfl := Option.some.inj h
      simp [hvals]
    · contradiction
  · obtain rfl := Option.some.inj h
    exact ⟨rfl, rfl⟩

theorem pop_length {c c' : Context} (h : c.pop = some c') :
    c'.valStack.length + 1 = c.valStack.length := by
  unfold Context.pop at h
  split at h
  · contradiction
  · next hvals =>
    obtain rfl := Option.some.inj h
    simp [hvals]
  · next hvals =>
    have hadd := (add_keeps h).1
    simp [hvals, hadd]

theorem feed_length {c c' : Context} {e : Event} (h : c.feed e = some c') :
    c'.valStack.length + closed [e] = c.valStack.length + opened [e] := by
  cases e with
  | startMap =>
    obtain rfl := Option.some.inj h
    rfl
  | startArray =>
    obtain rfl := Option.some.inj h
    rfl
  | mapKey k =>
    obtain rfl := Option.some.inj h
    rfl
  | endMap => exact pop_length h
  | endArray => exact pop_length h
  | null => exact (add_keeps h).1
  | boolean b => exact (add_keeps h).1
  | integer i => exact (add_keeps h).1
  | double w => exact (add_keeps h).1
  | string bs => exact (add_keeps h).1

/-- The containers that are on the stack are those that are open. -/
theorem run_length {c c' : Context} {es : List Event} (h : run Context.feed c es = some c') :
    c'.valStack.length + closed es = c.valStack.length + opened es := by
  induction es generalizing c with
  | nil =>
    obtain rfl := Option.some.inj h
    rfl
  | cons e es ih =>
    obtain ⟨d, hd, hrest⟩ := run_cons h
    have hstep := feed_length hd
    have hrun := ih hrest
    have hsplit : e :: es = [e] ++ es := rfl
    rw [hsplit, opened_append, closed_append]
    omega

/-! ## After an error -/

namespace Yajl

/-- What is told in the course of some calls. -/
def tells (Y : Yajl σ) (h : σ) : List (List UInt8) → List Event
  | [] => []
  | buf :: bufs => (Y.parse h buf).1 ++ Y.tells ((Y.parse h buf).2.getD Y.alloc) bufs

end Yajl

namespace Parser

variable {Y : Yajl σ} {L : Lexemes Number}

/-- A call to `process`, whatever it returns. -/
def call (Y : Yajl σ) (p : Parser σ) (buf : List UInt8) : Option (Parser σ) :=
  (p.process Y buf).map Prod.fst

/-- Every array and every object is read as by a parser that is new. -/
def Recovers (Y : Yajl σ) (L : Lexemes Number) (p : Parser σ) : Prop :=
  ∀ (j : JsonTree Number) (s : List UInt8) (root : Any), j.isContainer = true → Document L j s →
    ∃ q fresh : Parser σ, p.process Y s = some (q, false) ∧
      (create Y p.context.onRootObject root).process Y s = some (fresh, false) ∧
      q.context.root = fresh.context.root

theorem process_spec {p q : Parser σ} {buf : List UInt8} {err : Bool}
    (h : p.process Y buf = some (q, err)) :
    run Context.feed p.context (Y.parse p.handle buf).1 = some q.context ∧
      q.handle = (Y.parse p.handle buf).2.getD Y.alloc ∧ (err = true ↔ (Y.parse p.handle buf).2 = none) := by
  obtain ⟨c, hc, heq⟩ := Option.map_eq_some_iff.mp h
  cases hstatus : (Y.parse p.handle buf).2 with
  | none =>
    rw [hstatus] at heq
    obtain ⟨rfl, rfl⟩ := Prod.mk.inj heq
    exact ⟨hc, rfl, by simp⟩
  | some handle =>
    rw [hstatus] at heq
    obtain ⟨rfl, rfl⟩ := Prod.mk.inj heq
    exact ⟨hc, rfl, by simp⟩

theorem process_of_run {p : Parser σ} {buf : List UInt8} {es : List Event} {status : Option σ}
    {c : Context} (hparse : Y.parse p.handle buf = (es, status))
    (hrun : run Context.feed p.context es = some c) :
    p.process Y buf = some (⟨c, status.getD Y.alloc⟩, status.isNone) := by
  cases status with
  | none => simp [process, reset, hparse, hrun]
  | some h => simp [process, hparse, hrun]

theorem run_call {p q : Parser σ} {bufs : List (List UInt8)} (h : run (call Y) p bufs = some q) :
    run Context.feed p.context (Y.tells p.handle bufs) = some q.context := by
  induction bufs generalizing p with
  | nil =>
    obtain rfl := Option.some.inj h
    rfl
  | cons buf bufs ih =>
    obtain ⟨p', hp', hrest⟩ := run_cons h
    obtain ⟨⟨p', err⟩, hprocess, rfl⟩ := Option.map_eq_some_iff.mp hp'
    obtain ⟨hfeed, hhandle, -⟩ := process_spec hprocess
    rw [Yajl.tells, run_append, hfeed, Option.bind_some, ← hhandle]
    exact ih hrest

/-- What is told of an array or an object. -/
theorem tells_container {j : JsonTree Number} {s : List UInt8} (htells : Y.TellsDocument L s)
    (hj : j.isContainer = true) (hs : Document L j s) :
    ∃ i y es h, Document L i s ∧ i.head = j.head ∧ Means i y ∧ Y.parse Y.alloc s = (es, some h) ∧
      Gives true es y := by
  obtain ⟨i, h, es, hi, hparse, -, hes⟩ := htells j hs
  have hhead : i.head = j.head := head_unique hi hs
  have hcontainer : i.isContainer = true := (isContainer_of_head hhead).trans hj
  obtain ⟨y, hy, hgives⟩ := built i
  rw [hcontainer] at hgives
  exact ⟨i, y, es, h, hi, hhead, hy, hparse, hes hcontainer ▸ hgives⟩

/-- With nothing on the stack a container becomes the root. -/
theorem process_container {p : Parser σ} {s : List UInt8} {es : List Event} {h : σ} {y : Any}
    (hhandle : p.handle = Y.alloc) (hparse : Y.parse Y.alloc s = (es, some h)) (hgives : Gives true es y)
    (hvals : p.context.valStack = []) :
    ∃ q, p.process Y s = some (q, false) ∧ q.context.root = y := by
  have hrun := hgives.outer rfl p.context
  rw [hvals] at hrun
  obtain ⟨context, hpop, hroot⟩ : ∃ context, { p.context with valStack := [y] }.pop = some context ∧
      context.root = y := ⟨_, rfl, rfl⟩
  rw [← hhandle] at hparse
  exact ⟨⟨context, h⟩, process_of_run hparse (hrun.trans hpop), hroot⟩

theorem recovers_of_empty (hY : ∀ s, Y.TellsDocument L s) {p : Parser σ} (hhandle : p.handle = Y.alloc)
    (hvals : p.context.valStack = []) : Recovers Y L p := by
  intro j s root hj hs
  obtain ⟨i, y, es, h, -, -, -, hparse, hgives⟩ := tells_container (hY s) hj hs
  obtain ⟨q, hq, hroot⟩ := process_container hhandle hparse hgives hvals
  have hfresh : (create Y p.context.onRootObject root).context.valStack = [] := rfl
  obtain ⟨fresh, hprocess, hroot'⟩ := process_container rfl hparse hgives hfresh
  exact ⟨q, fresh, hq, hprocess, hroot.trans hroot'.symm⟩

/-- With something on the stack the root is what it was: a new parser has it as its root. -/
theorem root_of_recovers (hY : ∀ s, Y.TellsDocument L s) {p : Parser σ} (hhandle : p.handle = Y.alloc)
    (hvals : p.context.valStack ≠ []) (hp : Recovers Y L p) {j : JsonTree Number} {s : List UInt8}
    (hj : j.isContainer = true) (hs : Document L j s) :
    ∃ i, i.head = j.head ∧ Means i p.context.root := by
  obtain ⟨i, y, es, h, -, hhead, hy, hparse, hgives⟩ := tells_container (hY s) hj hs
  obtain ⟨q, fresh, hq, hprocess, hroot⟩ := hp j s .null hj hs
  have hfresh : (create Y p.context.onRootObject .null).context.valStack = [] := rfl
  obtain ⟨fresh', hprocess', hroot'⟩ := process_container rfl hparse hgives hfresh
  obtain ⟨rfl, -⟩ := Prod.mk.inj (Option.some.inj (hprocess.symm.trans hprocess'))
  obtain ⟨hfeed, -, -⟩ := process_spec hq
  rw [hhandle, hparse, hgives.inner p.context fun _ => hvals] at hfeed
  refine ⟨i, hhead, ?_⟩
  rw [← (add_keeps hfeed).2, hroot, hroot']
  exact hy

theorem not_recovers_of_open (hY : ∀ s, Y.TellsDocument L s) {p : Parser σ}
    (hhandle : p.handle = Y.alloc) (hvals : p.context.valStack ≠ []) : ¬Recovers Y L p := by
  intro hp
  obtain ⟨i, harray, hi⟩ := root_of_recovers hY hhandle hvals hp rfl (document_emptyArray L)
  obtain ⟨j, hobject, hj⟩ := root_of_recovers hY hhandle hvals hp rfl (document_emptyObject L)
  have hhead := (head_of_means hi).symm.trans (head_of_means hj)
  rw [harray, hobject] at hhead
  contradiction

/-- The handle of a parser that has returned an error is new. -/
theorem handle_of_error {p q : Parser σ} {buf : List UInt8} (h : p.process Y buf = some (q, true)) :
    q.handle = Y.alloc := by
  obtain ⟨-, hhandle, herr⟩ := process_spec h
  rw [hhandle, herr.mp rfl]
  rfl

/-- After calls of which the last returns an error, the parser reads every array and every object as a new
one does if and only if what yajl has told closes all that it opens. -/
theorem parser_recovers_iff (hY : ∀ s, Y.TellsDocument L s) (onRootObject : Bool) (root : Any)
    (bufs : List (List UInt8)) (buf : List UInt8) (p q : Parser σ)
    (hrun : run (call Y) (create Y onRootObject root) bufs = some p)
    (herr : p.process Y buf = some (q, true)) :
    q.Recovers Y L ↔
      opened (Y.tells Y.alloc (bufs ++ [buf])) = closed (Y.tells Y.alloc (bufs ++ [buf])) := by
  have hall : run (call Y) (create Y onRootObject root) (bufs ++ [buf]) = some q := by
    rw [run_append, hrun, Option.bind_some, run_singleton, call, herr]
    rfl
  have hlength := run_length (run_call hall)
  have hempty : q.context.valStack = [] ↔ q.context.valStack.length = 0 := List.length_eq_zero_iff.symm
  have hhandle := handle_of_error herr
  change q.context.valStack.length + closed (Y.tells Y.alloc _)
    = 0 + opened (Y.tells Y.alloc _) at hlength
  constructor
  · intro hrecovers
    have hvals : q.context.valStack = [] := by
      by_contra hvals
      exact not_recovers_of_open hY hhandle hvals hrecovers
    rw [hempty] at hvals
    omega
  · intro hbalance
    apply recovers_of_empty hY hhandle
    rw [hempty]
    omega

/-- `]` is an error, with nothing told. -/
theorem closing_recovers :
    ∃ q, (create (grammarYajl plainLexemes) false .null).process (grammarYajl plainLexemes) [closeArray]
        = some (q, true) ∧
      q.Recovers (grammarYajl plainLexemes) plainLexemes := by
  have hparse : (grammarYajl plainLexemes).parse () [closeArray] = ([], none) := by
    simp only [grammarYajl]
    rw [dif_neg (not_document_of_scan (by decide)), if_neg (by decide)]
  have hprocess := @process_of_run _ (grammarYajl plainLexemes)
    (create (grammarYajl plainLexemes) false .null) _ _ _ _ hparse rfl
  refine ⟨_, hprocess, ?_⟩
  rw [parser_recovers_iff (grammarYajl_tells plainLexemes) false .null [] [closeArray] _ _ rfl hprocess]
  change opened (((grammarYajl plainLexemes).parse () [closeArray]).1 ++ []) = closed (_ ++ [])
  rw [hparse]
  rfl

/-- After `[,` the array is still on the stack, and takes the next document for its first element. -/
theorem open_array_stays :
    (∀ s, (grammarYajl plainLexemes).TellsDocument plainLexemes s) ∧
      ∃ q, (create (grammarYajl plainLexemes) false .null).process (grammarYajl plainLexemes)
          [openArray, comma] = some (q, true) ∧
        ¬q.Recovers (grammarYajl plainLexemes) plainLexemes := by
  have hparse : (grammarYajl plainLexemes).parse () [openArray, comma] = ([.startArray], none) := by
    simp only [grammarYajl]
    rw [dif_neg (not_document_of_scan (by decide)), if_pos trivial]
  have hprocess := @process_of_run _ (grammarYajl plainLexemes)
    (create (grammarYajl plainLexemes) false .null) _ _ _ _ hparse rfl
  refine ⟨grammarYajl_tells plainLexemes, _, hprocess, ?_⟩
  exact not_recovers_of_open (grammarYajl_tells plainLexemes) rfl (by simp)

end Parser

/-! ## `json::inflate` -/

section

variable {Y : Yajl σ} {L : Lexemes Number}

/-- Success is reported just for the documents, of which the root is then the value, and a container that
is not complete leaves null. -/
def InflatesRight (Y : Yajl σ) (L : Lexemes Number) (root : Any) (s : List UInt8) : Prop :=
  ∃ root' ok, inflate Y root s = some (root', ok) ∧ (ok = true ↔ ∃ j, Document L j s) ∧
    (ok = true → ∃ j, Document L j s ∧ Means j root') ∧
    (Unfinished L s → ok = false ∧ root' = .null)

theorem add_nil {c : Context} (hvals : c.valStack = []) (y : Any) : c.add y = some c := by
  rw [Context.add, hvals]

/-- A text at the top, with nothing on the stack: a container becomes the root. -/
theorem feed_top (j : JsonTree Number) {c : Context} (hvals : c.valStack = []) :
    ∃ c' y, run Context.feed c (told j) = some c' ∧ c'.valStack = [] ∧ Means j y ∧
      c'.root = if j.isContainer then y else c.root := by
  obtain ⟨y, hy, hgives⟩ := built j
  cases hj : j.isContainer with
  | false =>
    refine ⟨c, y, ?_, hvals, hy, rfl⟩
    rw [hgives.inner c fun h => by rw [hj] at h; contradiction, add_nil hvals]
  | true =>
    have hrun := hgives.outer hj c
    rw [hvals] at hrun
    exact ⟨_, y, hrun, rfl, hy, rfl⟩

theorem feed_values (js : List (JsonTree Number)) {c : Context} (hvals : c.valStack = []) :
    ∃ c', run Context.feed c (js.flatMap told) = some c' := by
  induction js generalizing c with
  | nil => exact ⟨c, rfl⟩
  | cons j js ih =>
    obtain ⟨c', -, hc', hvals', -, -⟩ := feed_top j hvals
    obtain ⟨c'', hc''⟩ := ih hvals'
    refine ⟨c'', ?_⟩
    rw [List.flatMap_cons, run_append, hc', Option.bind_some, hc'']

theorem told_scalar {j : JsonTree Number} (hj : j.isContainer = false) : ∃ e, told j = [e] := by
  cases j with
  | null => exact ⟨_, by rw [told]⟩
  | boolean b => exact ⟨_, by rw [told]⟩
  | number n => cases n <;> exact ⟨_, by rw [told]⟩
  | string bs => exact ⟨_, by rw [told]⟩
  | array js => contradiction
  | object ms => contradiction

theorem inflate_of_run {root : Any} {s : List UInt8} {es : List Event} {status : Option σ} {c : Context}
    (hparse : Y.parse Y.alloc s = (es, status))
    (hrun : run Context.feed (.create false root) es = some c) :
    inflate Y root s = some (if status.isNone then (.null, false) else (c.root, true)) := by
  rw [inflate, @Parser.process_of_run σ Y (.create Y false root) s es status c hparse hrun]
  rfl

/-- Whatever the text is, what is told of it has a meaning to the context. -/
theorem inflate_defined (root : Any) {s : List UInt8} (hvalues : Y.TellsValues s) :
    ∃ c : Context, inflate Y root s
      = some (if (Y.parse Y.alloc s).2.isNone then (.null, false) else (c.root, true)) := by
  obtain ⟨js, es, hes⟩ := hvalues
  obtain ⟨c', hc'⟩ := @feed_values js (.create false root) rfl
  rw [← hes, run_append] at hc'
  obtain ⟨c, hc, -⟩ := Option.bind_eq_some_iff.mp hc'
  exact ⟨c, inflate_of_run rfl hc⟩

/-- A document is read: the root is its value, or what it was. -/
theorem inflate_document (root : Any) {s : List UInt8} {j : JsonTree Number} (hs : Document L j s)
    (htells : Y.TellsDocument L s) :
    ∃ i y, Document L i s ∧ i.head = j.head ∧ Means i y ∧
      inflate Y root s = some (if i.isContainer then y else root, true) := by
  obtain ⟨i, h, es, hi, hparse, hprefix, hes⟩ := htells j hs
  obtain ⟨c, y, hrun, -, hy, hroot⟩ := @feed_top i (.create false root) rfl
  refine ⟨i, y, hi, head_unique hi hs, hy, ?_⟩
  have hfeed : ∃ c', run Context.feed (.create false root) es = some c' ∧
      c'.root = if i.isContainer then y else root := by
    cases hcontainer : i.isContainer with
    | true =>
      rw [hcontainer] at hroot
      rw [hes hcontainer]
      exact ⟨c, hrun, hroot⟩
    | false =>
      obtain ⟨e, he⟩ := told_scalar hcontainer
      rw [hcontainer] at hroot
      rw [he] at hprefix hrun
      rcases List.prefix_cons_iff.mp hprefix with rfl | ⟨es, rfl, hnil⟩
      · exact ⟨_, rfl, rfl⟩
      · rw [List.prefix_nil.mp hnil]
        exact ⟨c, hrun, hroot⟩
  obtain ⟨c', hc', hroot'⟩ := hfeed
  rw [inflate_of_run hparse hc', ← hroot']
  rfl

/-- `inflate` is right about a text if and only if yajl reports an error, or the text is a complete array or
object, or another document of which the root already is the value. -/
theorem inflate_right_iff (root : Any) (s : List UInt8) (htells : Y.TellsDocument L s)
    (hvalues : Y.TellsValues s) :
    InflatesRight Y L root s ↔
      (Y.parse Y.alloc s).2 = none ∨
        ∃ j, Document L j s ∧ (j.isContainer = true ∨ Means j root) := by
  constructor
  · rintro ⟨root', ok, hinflate, hok, hmeans, -⟩
    rcases Option.eq_none_or_eq_some (Y.parse Y.alloc s).2 with hstatus | ⟨h, hstatus⟩
    · exact .inl hstatus
    obtain ⟨c, hc⟩ := inflate_defined root hvalues
    rw [hstatus, hinflate] at hc
    obtain ⟨rfl, rfl⟩ := Prod.mk.inj (Option.some.inj hc)
    obtain ⟨j, hj, hroot⟩ := hmeans rfl
    refine .inr ⟨j, hj, ?_⟩
    obtain ⟨i, y, hi, hhead, -, hdocument⟩ := inflate_document root hj htells
    rw [hinflate] at hdocument
    cases hcontainer : j.isContainer with
    | true => exact .inl rfl
    | false =>
      rw [isContainer_of_head hhead, hcontainer] at hdocument
      obtain ⟨hsame, -⟩ := Prod.mk.inj (Option.some.inj hdocument)
      rw [hsame] at hroot
      exact .inr hroot
  · rintro (hstatus | ⟨j, hj, hcondition⟩)
    · obtain ⟨c, hc⟩ := inflate_defined root hvalues
      rw [hstatus] at hc
      refine ⟨.null, false, hc, ?_, by intro h; contradiction, fun _ => ⟨rfl, rfl⟩⟩
      refine ⟨by intro h; contradiction, ?_⟩
      rintro ⟨j, hj⟩
      obtain ⟨i, h, es, -, hparse, -, -⟩ := htells j hj
      rw [hparse] at hstatus
      contradiction
    · obtain ⟨i, y, hi, hhead, hy, hinflate⟩ := inflate_document root hj htells
      refine ⟨_, true, hinflate, ⟨fun _ => ⟨j, hj⟩, fun _ => rfl⟩, fun _ => ?_, fun hunfinished =>
        absurd hunfinished (not_document_of_unfinished hj)⟩
      cases hcontainer : i.isContainer with
      | true => exact ⟨i, hi, hy⟩
      | false =>
        rw [← isContainer_of_head hhead, hcontainer] at hcondition
        rcases hcondition with h | hroot
        · contradiction
        · exact ⟨j, hj, hroot⟩

/-- yajl, as far as it says what it does of `[` and of `[]`. -/
def bracketYajl : Yajl Unit where
  alloc := ()
  parse _ s :=
    if s = [openArray] then ([.startArray], some ())
    else if s = [openArray, closeArray] then ([.startArray, .endArray], some ())
    else ([], none)

theorem inflate_brackets :
    InflatesRight bracketYajl plainLexemes .null [openArray, closeArray] := by
  have hdocument := document_emptyArray plainLexemes
  rw [inflate_right_iff .null [openArray, closeArray]]
  · exact .inr ⟨_, hdocument, .inl rfl⟩
  · intro j hj
    exact ⟨.array [], (), _, hdocument, rfl, List.prefix_refl _, fun _ => rfl⟩
  · exact ⟨[.array []], List.prefix_refl _⟩

/-- Of `[` success is reported, and the root stays what it was. -/
theorem inflate_unfinished :
    (bracketYajl.TellsDocument plainLexemes [openArray] ∧ bracketYajl.TellsValues [openArray]) ∧
      inflate bracketYajl .null [openArray] = some (.null, true) ∧
        ¬InflatesRight bracketYajl plainLexemes .null [openArray] := by
  have hnone := @not_document_of_scan _ plainLexemes [openArray] (by decide)
  have hinflate : inflate bracketYajl .null [openArray] = some (.null, true) := rfl
  refine ⟨⟨fun j hj => absurd ⟨j, hj⟩ hnone, [.array []], ?_⟩, hinflate, ?_⟩
  · exact List.prefix_append [Event.startArray] [.endArray]
  · rintro ⟨root', ok, hright, hok, -, -⟩
    obtain ⟨rfl, rfl⟩ := Prod.mk.inj (Option.some.inj (hinflate.symm.trans hright))
    exact hnone (hok.mp rfl)

end

end Nodeoze.Any.Json
