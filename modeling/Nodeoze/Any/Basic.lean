import Mathlib.Algebra.Order.Ring.Int
import Mathlib.Data.List.Nodup
import Mathlib.Tactic.Common

/-!
# Values of any type

An `any` is null, a boolean, a number, a string, a blob, an array or an object.  The members of an
object are listed in the order in which the map iterates over them, which is not specified;
comparing two objects does not depend on it.  A double is its bit pattern.
-/

namespace Nodeoze

/-- The keys of objects. -/
abbrev Key := List UInt8

inductive Any
  | null
  | boolean (b : Bool)
  | integer (i : Int64)
  | floating (word : UInt64)
  | string (bytes : List UInt8)
  | blob (bytes : List UInt8)
  | array (elems : List Any)
  | object (members : List (Key × Any))

namespace Any

mutual

/-- `any::equals` -/
def equals : Any → Any → Bool
  | .null, .null => true
  | .boolean b, .boolean b' => b == b'
  | .integer i, .integer i' => i == i'
  | .floating w, .floating w' => w == w'
  | .string bs, .string bs' => bs == bs'
  | .blob bs, .blob bs' => bs == bs'
  | .array xs, .array ys => equalsAll xs ys
  | .object ms, .object ns => ms.length == ns.length && equalsMembers ms ns
  | _, _ => false

def equalsAll : List Any → List Any → Bool
  | [], [] => true
  | x :: xs, y :: ys => equals x y && equalsAll xs ys
  | _, _ => false

/-- Every member of the first map is in the second. -/
def equalsMembers : List (Key × Any) → List (Key × Any) → Bool
  | [], _ => true
  | (k, v) :: ms, ns =>
    (match ns.lookup k with
      | some v' => equals v v'
      | none => false) && equalsMembers ms ns

end

mutual

/-- The keys of every object are distinct, and no size reaches `2 ^ 32`. -/
def WF : Any → Prop
  | .string bs => bs.length < 2 ^ 32
  | .blob bs => bs.length < 2 ^ 32
  | .array xs => xs.length < 2 ^ 32 ∧ WFAll xs
  | .object ms => ms.length < 2 ^ 32 ∧ (ms.map Prod.fst).Nodup ∧ WFMembers ms
  | _ => True

def WFAll : List Any → Prop
  | [] => True
  | x :: xs => WF x ∧ WFAll xs

def WFMembers : List (Key × Any) → Prop
  | [] => True
  | (k, v) :: ms => k.length < 2 ^ 32 ∧ WF v ∧ WFMembers ms

end

mutual

/-- How deep containers are nested. -/
def depth : Any → Nat
  | .array xs => depthAll xs + 1
  | .object ms => depthMembers ms + 1
  | _ => 1

def depthAll : List Any → Nat
  | [] => 0
  | x :: xs => max (depth x) (depthAll xs)

def depthMembers : List (Key × Any) → Nat
  | [] => 0
  | (_, v) :: ms => max (depth v) (depthMembers ms)

end

/-- Induction over the elements and members. -/
theorem induct {P : Any → Prop} (null : P .null) (boolean : ∀ b, P (.boolean b))
    (integer : ∀ i, P (.integer i)) (floating : ∀ w, P (.floating w)) (string : ∀ bs, P (.string bs))
    (blob : ∀ bs, P (.blob bs)) (array : ∀ xs, (∀ x ∈ xs, P x) → P (.array xs))
    (object : ∀ ms : List (Key × Any), (∀ m ∈ ms, P m.2) → P (.object ms)) (x : Any) : P x := by
  refine @Any.rec P (fun xs => ∀ x ∈ xs, P x) (fun ms => ∀ m ∈ ms, P m.2) (fun m => P m.2)
    null boolean integer floating string blob array object ?_ ?_ ?_ ?_ ?_ x
  · exact fun x hx => nomatch hx
  · intro y ys hy hys x hx
    rcases List.mem_cons.mp hx with rfl | hx
    · exact hy
    · exact hys x hx
  · exact fun m hm => nomatch hm
  · intro m ms hm hms m' hm'
    rcases List.mem_cons.mp hm' with rfl | hm'
    · exact hm
    · exact hms m' hm'
  · intro k v hv
    exact hv

theorem wfAll_iff (xs : List Any) : WFAll xs ↔ ∀ x ∈ xs, x.WF := by
  induction xs with
  | nil => simp [WFAll]
  | cons x xs ih => simp [WFAll, ih]

theorem wfMembers_iff (ms : List (Key × Any)) :
    WFMembers ms ↔ ∀ m ∈ ms, m.1.length < 2 ^ 32 ∧ m.2.WF := by
  induction ms with
  | nil => simp [WFMembers]
  | cons m ms ih =>
    obtain ⟨k, v⟩ := m
    simp [WFMembers, ih, and_assoc]

theorem equalsAll_refl {xs : List Any} (h : ∀ x ∈ xs, x.equals x = true) :
    equalsAll xs xs = true := by
  induction xs with
  | nil => rfl
  | cons x xs ih =>
    rw [equalsAll, h x List.mem_cons_self, ih fun y hy => h y (List.mem_cons_of_mem x hy)]
    rfl

theorem lookup_of_mem {ms : List (Key × Any)} (hnodup : (ms.map Prod.fst).Nodup) {k : Key} {v : Any}
    (hm : (k, v) ∈ ms) : ms.lookup k = some v := by
  induction ms with
  | nil => cases hm
  | cons m ms ih =>
    obtain ⟨k', v'⟩ := m
    rw [List.map_cons, List.nodup_cons] at hnodup
    rcases List.mem_cons.mp hm with heq | hrest
    · obtain ⟨rfl, rfl⟩ := Prod.mk.inj heq
      exact List.lookup_cons_self
    · have hne : k ≠ k' := by
        rintro rfl
        exact hnodup.1 (List.mem_map.mpr ⟨(k, v), hrest, rfl⟩)
      rw [List.lookup_cons, beq_eq_false_iff_ne.mpr hne]
      exact ih hnodup.2 hrest

theorem lookup_eq_none_iff_keys {ms : List (Key × Any)} {k : Key} :
    ms.lookup k = none ↔ k ∉ ms.map Prod.fst := by
  rw [List.lookup_eq_none_iff]
  constructor
  · intro h hk
    obtain ⟨m, hm, rfl⟩ := List.mem_map.mp hk
    simpa using h m hm
  · intro h m hm
    have hne : k ≠ m.1 := by
      rintro rfl
      exact h (List.mem_map.mpr ⟨m, hm, rfl⟩)
    simpa using hne

theorem equalsMembers_of_lookup {ms ns : List (Key × Any)}
    (h : ∀ m ∈ ms, ∃ v, ns.lookup m.1 = some v ∧ m.2.equals v = true) :
    equalsMembers ms ns = true := by
  induction ms with
  | nil => rfl
  | cons m ms ih =>
    obtain ⟨k, v⟩ := m
    obtain ⟨v', hv', heq⟩ := h (k, v) List.mem_cons_self
    have hhead : v.equals v' = true := heq
    rw [equalsMembers, ih fun m hm => h m (List.mem_cons_of_mem _ hm), hv']
    simp [hhead]

theorem equals_refl (x : Any) (hx : x.WF) : x.equals x = true := by
  induction x using induct with
  | null => rfl
  | boolean b => simp [equals]
  | integer i => simp [equals]
  | floating w => simp [equals]
  | string bs => simp [equals]
  | blob bs => simp [equals]
  | array xs ih =>
    rw [equals]
    exact equalsAll_refl fun x hx' => ih x hx' ((wfAll_iff xs).mp hx.2 x hx')
  | object ms ih =>
    obtain ⟨-, hnodup, hms⟩ := hx
    have hmembers : equalsMembers ms ms = true := by
      apply equalsMembers_of_lookup
      intro m hm
      exact ⟨m.2, lookup_of_mem hnodup hm, ih m hm ((wfMembers_iff ms).mp hms m hm).2⟩
    simp [equals, hmembers]

end Any

end Nodeoze
