import Nodeoze.Buffer.Contents

/-!
# Stores that check their arguments

`put( index, data, length, ec )` compares a sum that may wrap, and does not accept the one range that
ends where the buffer does; `rotate` compares each argument alone.  Where the comparisons agree with
what the ranges need, the stores do what they should, or report an error and store nothing.
-/

namespace Nodeoze.Buffer

open RefHeap Splice

/-- The call reports no error, and the handle shows `c` after it. -/
def Stored (r : Option (Heap × Option Errc)) (i : Nat) (c : List UInt8) : Prop :=
  ∃ H', r = some (H', none) ∧ H'.content i = some c

/-- The call reports an error, and the handle shows `c` after it. -/
def Refused (r : Option (Heap × Option Errc)) (i : Nat) (c : List UInt8) : Prop :=
  ∃ H' e, r = some (H', some e) ∧ H'.content i = some c

section

variable {H : Heap} {i : Nat} {h : Handle} {B : Block UInt8 Policy} {c : List UInt8}

/-! ### `put` -/

/-- What `put( index, data, length, ec )` is to do. -/
def PutChecked (H : Heap) (i index : Nat) (bytes c : List UInt8) : Prop :=
  if index + bytes.length ≤ c.length then Stored (putnEc H i index bytes) i (splice c index bytes)
  else Refused (putnEc H i index bytes) i c

theorem Owned.stored_put (o : Owned H i h B c) {index : Nat} {bytes : List UInt8}
    (hin : index + bytes.length ≤ h.size) :
    ∃ H', put H i index bytes = some H' ∧ H'.content i = some (splice c index bytes) := by
  obtain ⟨H₁, h₁, B₁, hrun, o₁, -⟩ := o.mutableData
  have hsize : h₁.size = h.size := by rw [← o₁.length, o.length]
  have hin₁ : index + bytes.length ≤ h₁.size := by omega
  obtain ⟨H', B', hput, -, o', -⟩ := o₁.rputn hin₁
  exact ⟨H', by simp [put, hrun, hput], o'.content⟩

theorem Owned.refused_same (o : Owned H i h B c) (e : Errc) : Refused (some (H, some e)) i c :=
  ⟨H, e, rfl, o.content⟩

theorem not_stored_error {c' : List UInt8} {e : Errc} : ¬Stored (some (H, some e)) i c' := by
  rintro ⟨H', hsome, -⟩
  cases hsome

theorem not_refused_map {r : Option Heap} {c' : List UInt8} :
    ¬Refused (r.bind fun H' => some (H', none)) i c' := by
  rintro ⟨H', e, hsome, -⟩
  rcases r with _ | H₁
  · cases hsome
  · cases hsome

theorem Owned.null_size (o : Owned H i h B c) (hd : h.data = none) : h.size = 0 := by
  have hin := o.within
  rw [Handle.Within, hd] at hin
  exact hin.1

theorem Owned.putChecked_iff (o : Owned H i h B c) (hlimit : h.size < sizeLimit) (index : Nat)
    (bytes : List UInt8) : PutChecked H i index bytes c ↔
      index + bytes.length ≠ h.size ∧ (index + bytes.length < sizeLimit ∨
        h.size ≤ (index + bytes.length) % sizeLimit) := by
  unfold PutChecked
  rw [o.length]
  by_cases hd : h.data = none
  · have hzero := o.null_size hd
    have hput : putnEc H i index bytes = some (H, some .noBufferSpace) := by
      simp [putnEc, dataOf, o.buf, hd]
    rw [hput, hzero]
    by_cases hin : index + bytes.length ≤ 0
    · rw [if_pos hin]
      exact iff_of_false not_stored_error fun h => h.1 (by omega)
    · rw [if_neg hin]
      exact iff_of_true (o.refused_same _) ⟨by omega, Or.inr (Nat.zero_le _)⟩
  · by_cases hguard : h.size ≤ (index + bytes.length) % sizeLimit
    · have hput : putnEc H i index bytes = some (H, some .invalidArgument) := by
        simp [putnEc, dataOf, o.buf, hd, sizeOf_eq o.buf, hguard]
      rw [hput]
      by_cases hin : index + bytes.length ≤ h.size
      · have hmod : (index + bytes.length) % sizeLimit = index + bytes.length :=
          Nat.mod_eq_of_lt (by omega)
        rw [if_pos hin]
        exact iff_of_false not_stored_error fun h => h.1 (by omega)
      · rw [if_neg hin]
        exact iff_of_true (o.refused_same _) ⟨by omega, Or.inr hguard⟩
    · have hput : putnEc H i index bytes =
          (put H i index bytes).bind fun H' => some (H', none) := by
        simp [putnEc, dataOf, o.buf, hd, sizeOf_eq o.buf, hguard]
      rw [hput]
      by_cases hwrap : index + bytes.length < sizeLimit
      · rw [Nat.mod_eq_of_lt hwrap] at hguard
        have hin : index + bytes.length ≤ h.size := by omega
        obtain ⟨H', hstore, hcontent⟩ := o.stored_put hin
        rw [if_pos hin, hstore]
        exact iff_of_true ⟨H', rfl, hcontent⟩ ⟨by omega, Or.inl hwrap⟩
      · rw [if_neg (by omega)]
        refine iff_of_false not_refused_map ?_
        rintro ⟨-, hlt | hle⟩
        · exact hwrap hlt
        · exact hguard hle

/-! ### `rotate` -/

/-- What `rotate( to, from, end )` is to do. -/
def RotateChecked (H : Heap) (i to_ from_ end_ : Nat) (c : List UInt8) : Prop :=
  if from_ ≤ end_ ∧ end_ ≤ c.length ∧ to_ + (end_ - from_) ≤ c.length then
    Stored (rotate H i to_ from_ end_) i (splice c to_ ((c.drop from_).take (end_ - from_)))
  else Refused (rotate H i to_ from_ end_) i c

theorem Owned.rotate_inside (o : Owned H i h B c) {to_ from_ end_ : Nat} (hto : to_ < h.size)
    (hfrom : from_ < h.size) (hend : end_ ≤ h.size) (hle : from_ ≤ end_)
    (hroom : to_ + (end_ - from_) ≤ h.size) :
    Stored (rotate H i to_ from_ end_) i (splice c to_ ((c.drop from_).take (end_ - from_))) := by
  have hpos : h.size ≠ 0 := by omega
  obtain ⟨H₁, h₁, B₁, hrun, o₁, -⟩ := o.mutableData
  have hsize : h₁.size = h.size := by rw [← o₁.length, o.length]
  have hdiff : difference end_ from_ = end_ - from_ := if_pos hle
  have hread := o₁.read_at (k := from_) (n := end_ - from_) (by omega)
  have hlen : ((c.drop from_).take (end_ - from_)).length = end_ - from_ := by
    rw [List.length_take, List.length_drop, o.length]
    omega
  have hin₁ : to_ + ((c.drop from_).take (end_ - from_)).length ≤ h₁.size := by omega
  obtain ⟨H', B', -, hwrite, o', -⟩ := o₁.rputn hin₁
  refine ⟨H', ?_, o'.content⟩
  simp [rotate, sizeOf_eq o.buf, hpos, hto, hfrom, hend, hrun, o₁.buf, hdiff, hread, hwrite]

/-- Arguments that are let through are never refused later. -/
theorem Owned.rotate_accepted (o : Owned H i h B c) {to_ from_ end_ : Nat} (hto : to_ < h.size)
    (hfrom : from_ < h.size) (hend : end_ ≤ h.size) {c' : List UInt8} :
    ¬Refused (rotate H i to_ from_ end_) i c' := by
  have hpos : h.size ≠ 0 := by omega
  obtain ⟨H₁, h₁, B₁, hrun, o₁, -⟩ := o.mutableData
  have hrotate : rotate H i to_ from_ end_ =
      ((H₁.read (h₁.at from_) (difference end_ from_)).bind fun bytes =>
        H₁.write (h₁.at to_) bytes).bind fun H' => some (H', none) := by
    simp [rotate, sizeOf_eq o.buf, hpos, hto, hfrom, hend, hrun, o₁.buf, Option.bind_assoc]
  rw [hrotate]
  exact not_refused_map

theorem Owned.rotate_rejected (o : Owned H i h B c) {to_ from_ end_ : Nat}
    (hguard : ¬(to_ < h.size ∧ from_ < h.size ∧ end_ ≤ h.size)) :
    ∃ e, rotate H i to_ from_ end_ = some (H, some e) := by
  by_cases hzero : h.size = 0
  · exact ⟨.noBufferSpace, by simp [rotate, sizeOf_eq o.buf, hzero]⟩
  · refine ⟨.invalidArgument, ?_⟩
    simp only [rotate, sizeOf_eq o.buf, hzero, if_false, if_pos hguard]
    rfl

theorem Owned.rotateChecked_iff (o : Owned H i h B c) (to_ from_ end_ : Nat) :
    RotateChecked H i to_ from_ end_ c ↔
      (to_ < h.size → from_ < h.size → end_ ≤ h.size →
        from_ ≤ end_ ∧ to_ + (end_ - from_) ≤ h.size) ∧
      (from_ = end_ → end_ ≤ h.size → to_ ≤ h.size → to_ < h.size ∧ from_ < h.size) := by
  unfold RotateChecked
  rw [o.length]
  by_cases hguard : to_ < h.size ∧ from_ < h.size ∧ end_ ≤ h.size
  · obtain ⟨hto, hfrom, hend⟩ := hguard
    by_cases hvalid : from_ ≤ end_ ∧ to_ + (end_ - from_) ≤ h.size
    · obtain ⟨hle, hroom⟩ := hvalid
      rw [if_pos ⟨hle, hend, hroom⟩]
      exact iff_of_true (o.rotate_inside hto hfrom hend hle hroom)
        ⟨fun _ _ _ => ⟨hle, hroom⟩, fun _ _ _ => ⟨hto, hfrom⟩⟩
    · rw [if_neg (by tauto)]
      exact iff_of_false (o.rotate_accepted hto hfrom hend) fun h => hvalid (h.1 hto hfrom hend)
  · obtain ⟨e, hrotate⟩ := o.rotate_rejected hguard
    rw [hrotate]
    by_cases hvalid : from_ ≤ end_ ∧ end_ ≤ h.size ∧ to_ + (end_ - from_) ≤ h.size
    · rw [if_pos hvalid]
      -- the range is empty, and it or its destination is at the end of the buffer
      exact iff_of_false not_stored_error fun h => hguard (by
        have hempty := h.2
        omega)
    · rw [if_neg hvalid]
      exact iff_of_true (o.refused_same e) ⟨fun hto hfrom hend => absurd ⟨hto, hfrom, hend⟩ hguard,
        fun hsame hend hto => absurd ⟨hsame.le, hend, by omega⟩ hvalid⟩

end

/-- After any allowed run, and for all arguments: the two calls do what they should if and only if their
comparisons agree with what the ranges need. -/
theorem stores_in_range (junk : Nat → Nat → UInt8) (ops : List Op)
    (hallow : allowsRun junk RefHeap.empty ops = true) :
    ∃ H, run junk RefHeap.empty ops = some H ∧ ∀ i h, H.bufs i = some h → h.size < sizeLimit →
      ∃ c, H.content i = some c ∧ c.length = h.size ∧
        (∀ index bytes, PutChecked H i index bytes c ↔
          index + bytes.length ≠ h.size ∧ (index + bytes.length < sizeLimit ∨
            h.size ≤ (index + bytes.length) % sizeLimit)) ∧
        ∀ to_ from_ end_, RotateChecked H i to_ from_ end_ c ↔
          (to_ < h.size → from_ < h.size → end_ ≤ h.size →
            from_ ≤ end_ ∧ to_ + (end_ - from_) ≤ h.size) ∧
          (from_ = end_ → end_ ≤ h.size → to_ ≤ h.size → to_ < h.size ∧ from_ < h.size) := by
  obtain ⟨H, hrun, inv⟩ := inv_of_run junk hallow
  refine ⟨H, hrun, fun i h hi hlimit => ?_⟩
  obtain ⟨B, c, o, -⟩ := inv.owned hi
  exact ⟨c, o.content, o.length, o.putChecked_iff hlimit, o.rotateChecked_iff⟩

theorem stores_in_range_sliceRun :
    ∃ H, run (fun _ _ => 0) RefHeap.empty sliceRun = some H ∧
      PutChecked H 0 1 [8, 9] [1, 2, 3, 4] ∧ PutChecked H 0 3 [8, 9] [1, 2, 3, 4] ∧
      RotateChecked H 0 1 2 4 [1, 2, 3, 4] ∧ RotateChecked H 0 4 1 9 [1, 2, 3, 4] := by
  obtain ⟨H, hrun, hall⟩ := stores_in_range (fun _ _ => 0) sliceRun (by decide)
  refine ⟨H, hrun, ?_⟩
  obtain rfl := Option.some.inj hrun
  obtain ⟨c, hc, -, hput, hrotate⟩ := hall 0 _ rfl (by decide)
  obtain rfl := Option.some.inj hc
  refine ⟨(hput 1 [8, 9]).mpr ?_, (hput 3 [8, 9]).mpr ?_, (hrotate 1 2 4).mpr ?_,
    (hrotate 4 1 9).mpr ?_⟩
  · decide
  · decide
  · decide
  · decide

/-- The last bytes cannot be put; a sum that wraps is let through to a store far outside; and `rotate` takes
a range that goes beyond the end, and one that ends before it starts. -/
theorem checks_miss :
    ∃ H, run (fun _ _ => 0) RefHeap.empty [.construct [1, 2, 3, 4] .copyOnWrite] = some H ∧
      (putnEc H 0 2 [8, 9]).map Prod.snd = some (some .invalidArgument) ∧
      ¬PutChecked H 0 2 [8, 9] [1, 2, 3, 4] ∧ putnEc H 0 (sizeLimit - 1) [8, 9] = none ∧
      ¬PutChecked H 0 (sizeLimit - 1) [8, 9] [1, 2, 3, 4] ∧
      ¬RotateChecked H 0 3 0 4 [1, 2, 3, 4] ∧ ¬RotateChecked H 0 0 2 1 [1, 2, 3, 4] := by
  refine ⟨_, rfl, rfl, ?_, rfl, ?_, ?_, ?_⟩
  · rintro ⟨H', hsome, -⟩
    cases hsome
  · rintro ⟨H', e, hsome, -⟩
    cases hsome
  · rintro ⟨H', e, hsome, -⟩
    cases hsome
  · rintro ⟨H', e, hsome, -⟩
    cases hsome

end Nodeoze.Buffer
