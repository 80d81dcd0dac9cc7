import Nodeoze.Bstream.Primitives
import Mathlib.Logic.Function.Basic

/-!
# Error codes on a stream

An error category is an object that is known by its address.  `error_category_context` numbers the
categories that a writer and a reader share, the default ones first: a vector for the reader and, for
the writer, a map from addresses to positions, which a loop in the constructor fills.
-/

namespace Nodeoze.Bstream

open Reader Endian

variable {σ : Type}

/-- The address of an error category. -/
inductive Category
  | generic
  | bstream
  | custom (address : Nat)
  deriving DecidableEq, Repr

/-- `std::error_code` -/
structure ErrorCode where
  value : Int32
  category : Category
  deriving DecidableEq, Repr

/-- `m_default_categories` -/
def defaultCategories : List Category := [.generic, .bstream]

/-- `emplace` of an `unordered_map`, which keeps the entry of a key that is there. -/
def emplaceCategory (m : Category → Option Int) (c : Category) (i : Int) : Category → Option Int :=
  if (m c).isSome then m else Function.update m c (some i)

/-- The loop of the constructor, from position `i` on. -/
def fillMap : Nat → List Category → (Category → Option Int) → Category → Option Int
  | _, [], m => m
  | i, c :: cs, m => fillMap (i + 1) cs (emplaceCategory m c i)

/-- `error_category_context`; the custom categories are listed in the program. -/
structure ErrorCategoryContext where
  custom : List Category
  /-- A position is an `int`. -/
  length_le : custom.length + 2 ≤ 2 ^ 31

namespace ErrorCategoryContext

variable (E : ErrorCategoryContext) (o : Order)

/-- `m_category_vector` -/
def categoryVector : List Category := defaultCategories ++ E.custom

/-- `m_category_map` -/
def categoryMap : Category → Option Int := fillMap 0 E.categoryVector fun _ => none

def categoryFromIndex (index : Int) : Except Fault Category :=
  if index < 0 then .error (.system .invalidErrCategory)
  else
    match E.categoryVector[index.toNat]? with
    | some c => .ok c
    | none => .error (.system .invalidErrCategory)

def indexOfCategory (c : Category) : Except Fault Int :=
  match E.categoryMap c with
  | some i => .ok i
  | none => .error (.system .invalidErrCategory)

/-- `obstream::write_error_code` -/
def writeErrorCode (ecode : ErrorCode) : Except Fault (List Chunk) := do
  let categoryIndex ← E.indexOfCategory ecode.category
  pure (writeArrayHeader o 2 ++ putInt o true categoryIndex ++ putInt o true ecode.value.toInt)

/-- `ibstream::read_error_code` -/
def readErrorCode : Istream σ ErrorCode := do
  let n ← readArrayHeader o
  if n ≠ 2 then throw (.system .typeError)
  else do
    let categoryIndex ← getInt o true .w32
    let value ← getInt o true .w32
    let category ← ofExcept (E.categoryFromIndex categoryIndex)
    pure ⟨Int32.ofInt value, category⟩

end ErrorCategoryContext

/-! ### The map is the inverse of the vector -/

/-- The map has the categories of the list, each at a position where the list has it. -/
structure Indexes (m : Category → Option Int) (l : List Category) : Prop where
  known : ∀ c, (m c).isSome ↔ c ∈ l
  place : ∀ c i, m c = some i → 0 ≤ i ∧ l[i.toNat]? = some c

theorem indexes_nil : Indexes (fun _ => none) [] where
  known c := by simp
  place c i h := by cases h

/-- One round of the loop. -/
theorem Indexes.emplace {m : Category → Option Int} {l : List Category} (h : Indexes m l)
    (c : Category) : Indexes (emplaceCategory m c l.length) (l ++ [c]) := by
  have hplace : ∀ d i, m d = some i → 0 ≤ i ∧ (l ++ [c])[i.toNat]? = some d := by
    intro d i hd
    obtain ⟨hi, hl⟩ := h.place d i hd
    obtain ⟨hlt, -⟩ := List.getElem?_eq_some_iff.mp hl
    rw [List.getElem?_append_left hlt]
    exact ⟨hi, hl⟩
  unfold emplaceCategory
  by_cases hc : (m c).isSome
  · rw [if_pos hc]
    refine ⟨fun d => ?_, hplace⟩
    have hmem : c ∈ l := (h.known c).mp hc
    rw [h.known d, List.mem_append, List.mem_singleton]
    constructor
    · exact Or.inl
    · rintro (hd | rfl)
      · exact hd
      · exact hmem
  · rw [if_neg hc]
    constructor
    · intro d
      by_cases hd : d = c
      · subst hd
        simp
      · rw [Function.update_of_ne hd, h.known d]
        simp [hd]
    · intro d i hdi
      by_cases hd : d = c
      · subst hd
        rw [Function.update_self] at hdi
        obtain rfl := Option.some.inj hdi
        simp
      · rw [Function.update_of_ne hd] at hdi
        exact hplace d i hdi

/-- The whole loop. -/
theorem Indexes.fillMap {m : Category → Option Int} {l : List Category} (h : Indexes m l)
    (cs : List Category) : Indexes (fillMap l.length cs m) (l ++ cs) := by
  induction cs generalizing m l with
  | nil =>
    rw [List.append_nil]
    exact h
  | cons c cs ih =>
    have hstep := ih (h.emplace c)
    rw [List.length_append, List.length_singleton, List.append_assoc, List.singleton_append] at hstep
    exact hstep

namespace ErrorCategoryContext

variable (E : ErrorCategoryContext) (o : Order)

theorem indexes_categoryMap : Indexes E.categoryMap E.categoryVector :=
  indexes_nil.fillMap E.categoryVector

theorem categoryFromIndex_ok {index : Int} {c : Category} (hindex : 0 ≤ index)
    (h : E.categoryVector[index.toNat]? = some c) : E.categoryFromIndex index = .ok c := by
  rw [categoryFromIndex, if_neg (by omega), h]

theorem categoryFromIndex_error {index : Int}
    (h : ¬ (0 ≤ index ∧ index < E.categoryVector.length)) :
    E.categoryFromIndex index = .error (.system .invalidErrCategory) := by
  unfold categoryFromIndex
  by_cases hindex : index < 0
  · rw [if_pos hindex]
  · have hlength : E.categoryVector.length ≤ index.toNat := by omega
    rw [if_neg hindex, List.getElem?_eq_none hlength]

/-- The index of a registered category is a position of the vector that holds it. -/
theorem indexOfCategory_spec {c : Category} (hc : c ∈ E.categoryVector) :
    ∃ i, E.indexOfCategory c = .ok i ∧ InRange true .w32 i ∧ E.categoryFromIndex i = .ok c := by
  have hmap := E.indexes_categoryMap
  obtain ⟨i, hi⟩ := Option.isSome_iff_exists.mp ((hmap.known c).mpr hc)
  obtain ⟨hnonneg, hget⟩ := hmap.place c i hi
  obtain ⟨hlt, -⟩ := List.getElem?_eq_some_iff.mp hget
  have hlength : E.categoryVector.length = E.custom.length + 2 := by
    simp [categoryVector, defaultCategories]
  have hle := E.length_le
  refine ⟨i, ?_, ?_, E.categoryFromIndex_ok hnonneg hget⟩
  · rw [indexOfCategory, hi]
  · simp only [InRange, if_true, Width.size]
    omega

theorem indexOfCategory_error {c : Category} (hc : c ∉ E.categoryVector) :
    E.indexOfCategory c = .error (.system .invalidErrCategory) := by
  have hnone : E.categoryMap c = none := by
    rw [← Option.not_isSome_iff_eq_none, E.indexes_categoryMap.known c]
    exact hc
  rw [indexOfCategory, hnone]

theorem inRange_value (v : Int32) : InRange true .w32 v.toInt := by
  have hlo := v.le_toInt
  have hhi := v.toInt_lt
  simp only [InRange, if_true, Width.size]
  omega

/-- What is written of an error code of a registered category is read back as it. -/
theorem reads_readErrorCode {ecode : ErrorCode} (hc : ecode.category ∈ E.categoryVector) :
    ∃ ts, E.writeErrorCode o ecode = .ok ts ∧
      ∀ s : σ, Reads eof (E.readErrorCode o) s ts ecode s := by
  obtain ⟨i, hindex, hrange, hcategory⟩ := E.indexOfCategory_spec hc
  refine ⟨writeArrayHeader o 2 ++ putInt o true i ++ putInt o true ecode.value.toInt, ?_, fun s => ?_⟩
  · rw [writeErrorCode, hindex]
    rfl
  · rw [List.append_assoc]
    apply Reads.bind (reads_readArrayHeader o (by decide) s)
    apply Reads.bind (reads_getInt o hrange s)
    apply (reads_getInt o (inRange_value ecode.value) s).bind_pure
    rw [hcategory, Int32.ofInt_toInt]
    rfl

/-- An index that the context does not have is refused, however it is encoded. -/
theorem readErrorCode_refuses {junk : Nat → Nat → UInt8} {st st₁ st₂ st₃ : Input σ}
    {index value : Int} (hheader : readArrayHeader o junk st = .ok (2, st₁))
    (hindex : getInt o true .w32 junk st₁ = .ok (index, st₂))
    (hvalue : getInt o true .w32 junk st₂ = .ok (value, st₃))
    (hout : ¬ (0 ≤ index ∧ index < E.categoryVector.length)) :
    E.readErrorCode o junk st = .error (.system .invalidErrCategory) := by
  rw [readErrorCode, bind_ok hheader, if_neg (by decide), bind_ok hindex, bind_ok hvalue,
    E.categoryFromIndex_error hout]
  rfl

/-- A context shared by writer and reader: the error codes of its categories come back, those of
other categories are refused by the writer, and other indices by the reader. -/
theorem errorCode_round_trip (ecode : ErrorCode) :
    (ecode.category ∈ E.categoryVector → ∃ ts, E.writeErrorCode o ecode = .ok ts ∧
      ∀ s : σ, Takes (E.readErrorCode o) s (bytes ts) ecode s) ∧
    (ecode.category ∉ E.categoryVector →
      E.writeErrorCode o ecode = .error (.system .invalidErrCategory)) ∧
    ∀ junk (st st₁ st₂ st₃ : Input σ) (index value : Int),
      readArrayHeader o junk st = .ok (2, st₁) → getInt o true .w32 junk st₁ = .ok (index, st₂) →
      getInt o true .w32 junk st₂ = .ok (value, st₃) →
      ¬ (0 ≤ index ∧ index < E.categoryVector.length) →
      E.readErrorCode o junk st = .error (.system .invalidErrCategory) := by
  refine ⟨fun hc => ?_, fun hc => ?_, fun junk st st₁ st₂ st₃ index value => ?_⟩
  · obtain ⟨ts, hts, hreads⟩ := E.reads_readErrorCode o hc
    exact ⟨ts, hts, fun s => (hreads s).takes⟩
  · rw [writeErrorCode, E.indexOfCategory_error hc]
    rfl
  · exact E.readErrorCode_refuses o

/-- A category that is registered twice, and a negative value. -/
theorem errorCode_round_trip_twice :
    ∃ ts, writeErrorCode ⟨[.custom 7, .custom 7], by decide⟩ .big ⟨-5, .custom 7⟩ = .ok ts ∧
      ∀ s : Unit, Takes (readErrorCode ⟨[.custom 7, .custom 7], by decide⟩ .big) s (bytes ts)
        ⟨-5, .custom 7⟩ s :=
  (errorCode_round_trip ⟨[.custom 7, .custom 7], by decide⟩ .big ⟨-5, .custom 7⟩).1 (by decide)

end ErrorCategoryContext

end Nodeoze.Bstream
