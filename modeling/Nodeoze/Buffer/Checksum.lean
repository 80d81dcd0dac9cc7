import Nodeoze.Lib.Crc32
import Nodeoze.Buffer.Contents

/-!
# The checksum of a part of a buffer

`checksum( offset, length )` gives the bytes to the CRC object if `offset < length` and a sum that may wrap
is at most `m_size`; otherwise it returns the checksum of no bytes.
-/

namespace Nodeoze.Buffer

open RefHeap Crc32

/-- `checksum( offset, length )` -/
def checksum (d : Digest) (H : Heap) (i offset length : Nat) : Option (BitVec 32) := do
  let h ← H.bufs i
  if h.data.isSome ∧ offset < length ∧ (offset + length) % sizeLimit ≤ h.size then
    let bytes ← H.read (h.at offset) length
    pure (d.checksum (d.processBytes d.fresh bytes))
  else pure (d.checksum d.fresh)

/-- `checksum()` -/
def checksumAll (d : Digest) (H : Heap) (i : Nat) : Option (BitVec 32) := checksum d H i 0 (sizeOf H i)

/-- What `checksum( offset, length )` is to do: cover the range, or read nothing outside the buffer. -/
def Covers (r : Option (BitVec 32)) (offset length : Nat) (c : List UInt8) : Prop :=
  if offset + length ≤ c.length then r = some (crc32 ((c.drop offset).take length)) else r ≠ none

/-- The comparisons let the range through if it is in the buffer, or it has the checksum of no bytes; and they
do not let it through if it is not. -/
def Coverable (h : Handle) (offset length : Nat) (c : List UInt8) : Prop :=
  if offset + length ≤ c.length then offset < length ∨ crc32 ((c.drop offset).take length) = crc32 []
  else ¬(h.data.isSome ∧ offset < length ∧ (offset + length) % sizeLimit ≤ c.length)

section

variable {d : Digest} {H : Heap} {i : Nat} {h : Handle} {B : Block UInt8 Policy} {c : List UInt8}

theorem Owned.isSome_data (o : Owned H i h B c) (hpos : 0 < h.size) : h.data.isSome = true := by
  rcases hdata : h.data with _ | p
  · have hin := o.within
    rw [Handle.Within, hdata] at hin
    exact absurd hin.1 (Nat.ne_of_gt hpos)
  · rfl

/-- Nothing is read beyond the block. -/
theorem Owned.read_beyond (o : Owned H i h B c) {offset length : Nat} (hpos : length ≠ 0)
    (hbeyond : B.mem.length < offset + length) : H.read (h.at offset) length = none := by
  obtain ⟨off, -, -, hptr⟩ := read_within o.blk o.within
  rcases hdata : h.data with _ | p
  · simp [RefHeap.read, hpos, Handle.at, hdata]
  · obtain ⟨rfl, -⟩ := hptr p hdata
    have hout : ¬off + offset + length ≤ B.mem.length := by omega
    simp [RefHeap.read, hpos, Handle.at, hdata, Ptr.add, o.blk, hout]

theorem Owned.covers_iff (o : Owned H i h B c) (hd : d.IsCrc32) (hlimit : B.mem.length < sizeLimit)
    (offset length : Nat) :
    Covers (Buffer.checksum d H i offset length) offset length c ↔ Coverable h offset length c := by
  have hsize := o.size_le
  unfold Covers Coverable
  rw [o.length]
  by_cases hguard : h.data.isSome ∧ offset < length ∧ (offset + length) % sizeLimit ≤ h.size
  · by_cases hin : offset + length ≤ h.size
    · rw [if_pos hin, if_pos hin]
      refine iff_of_true ?_ (.inl hguard.2.1)
      simp [Buffer.checksum, o.buf, hguard, o.read_at hin, hd.checksum_bytes]
    · rw [if_neg hin, if_neg hin]
      -- the sum wraps, so the range ends beyond every block
      have hwrap : sizeLimit ≤ offset + length := by
        by_contra hlt
        have hle := hguard.2.2
        rw [Nat.mod_eq_of_lt (by omega)] at hle
        exact hin hle
      have hread : H.read (h.at offset) length = none := o.read_beyond (by omega) (by omega)
      refine iff_of_false ?_ (not_not_intro hguard)
      simp [Buffer.checksum, o.buf, hguard, hread]
  · have hchecksum : Buffer.checksum d H i offset length = some (crc32 []) := by
      simp only [Buffer.checksum, o.buf, Option.bind_eq_bind, Option.bind_some, if_neg hguard,
        hd.checksum_fresh]
      rfl
    rw [hchecksum]
    by_cases hin : offset + length ≤ h.size
    · rw [if_pos hin, if_pos hin, Option.some.injEq]
      have hempty : ¬offset < length := by
        intro hlt
        refine hguard ⟨o.isSome_data (by omega), hlt, ?_⟩
        exact (Nat.mod_le _ _).trans hin
      rw [or_iff_right hempty]
      exact eq_comm
    · rw [if_neg hin, if_neg hin]
      exact iff_of_true (Option.some_ne_none _) hguard

/-- The whole checksum covers all that the handle shows. -/
theorem checksumAll_eq (hd : d.IsCrc32) (hc : H.content i = some c) :
    checksumAll d H i = some (crc32 c) := by
  rcases hi : H.bufs i with _ | h
  · simp [RefHeap.content, hi] at hc
  · have hread : H.read h.data h.size = some c := by simpa [RefHeap.content, hi] using hc
    have hlen : c.length = (Source.range h.data h.size).nbytes := Source.length_read hread
    rw [Source.nbytes] at hlen
    rw [checksumAll, sizeOf_eq hi]
    by_cases hzero : h.size = 0
    · rw [hzero, List.length_eq_zero_iff] at hlen
      simp [checksum, hi, hzero, hd.checksum_fresh, hlen]
    · have hdata : h.data.isSome := by
        rcases hdata : h.data with _ | p
        · simp [RefHeap.read, hzero, hdata] at hread
        · rfl
      simp [checksum, hi, hdata, Nat.pos_of_ne_zero hzero, Nat.mod_le, at_zero, hread,
        hd.checksum_bytes]

end

/-- After any allowed run, a checksum covers its range exactly where the comparisons agree with it; and the
whole checksum of a slice always is that of the range. -/
theorem checksum_covers (d : Digest) (hd : d.IsCrc32) (junk : Nat → Nat → UInt8) (ops : List Op)
    (hallow : allowsRun junk RefHeap.empty ops = true) :
    ∃ H, run junk RefHeap.empty ops = some H ∧ ∀ i h B, H.bufs i = some h → H.blks h.blk = some B →
      B.mem.length < sizeLimit → ∃ c, H.content i = some c ∧ c.length = h.size ∧
        ∀ offset length, (Covers (checksum d H i offset length) offset length c ↔
            Coverable h offset length c) ∧
          ∀ forceCopy, ∃ H', slice H i offset length forceCopy = some H' ∧
            checksumAll d H' H.slots = some (crc32 ((c.drop offset).take length)) := by
  obtain ⟨H, hrun, inv⟩ := inv_of_run junk hallow
  refine ⟨H, hrun, fun i h B hi hB hlimit => ?_⟩
  obtain ⟨B', c, o, -⟩ := inv.owned hi
  obtain rfl := Option.some.inj (hB.symm.trans o.blk)
  refine ⟨c, o.content, o.length, fun offset length => ⟨o.covers_iff hd hlimit offset length, ?_⟩⟩
  intro forceCopy
  obtain ⟨H', -, hslice, -, hpart, -⟩ := o.slice offset length forceCopy
  exact ⟨H', hslice, checksumAll_eq hd hpart⟩

theorem checksum_covers_sliceRun :
    ∃ H, run (fun _ _ => 0) RefHeap.empty sliceRun = some H ∧
      Covers (checksum bitwise H 0 1 3) 1 3 [1, 2, 3, 4] ∧
      Covers (checksum bitwise H 0 2 3) 2 3 [1, 2, 3, 4] ∧
      Covers (checksum bitwise H 1 0 2) 0 2 [2, 3] := by
  obtain ⟨H, hrun, hall⟩ := checksum_covers bitwise bitwise_isCrc32 (fun _ _ => 0) sliceRun (by decide)
  refine ⟨H, hrun, ?_⟩
  obtain rfl := Option.some.inj hrun
  obtain ⟨c₀, hc₀, -, hcovers₀⟩ := hall 0 _ _ rfl rfl (by decide)
  obtain ⟨c₁, hc₁, -, hcovers₁⟩ := hall 1 _ _ rfl rfl (by decide)
  obtain rfl := Option.some.inj hc₀
  obtain rfl := Option.some.inj hc₁
  refine ⟨(hcovers₀ 1 3).1.mpr (.inl ?_), (hcovers₀ 2 3).1.mpr ?_, (hcovers₁ 0 2).1.mpr (.inl ?_)⟩
  · decide
  · rintro ⟨-, -, hle⟩
    exact absurd hle (by decide)
  · decide

/-- The second half of a buffer has the checksum of no bytes, and a sum that wraps lets a range through that
is far outside. -/
theorem checksum_misses :
    ∃ H, run (fun _ _ => 0) RefHeap.empty [.construct [1, 2, 3, 4] .copyOnWrite] = some H ∧
      H.content 0 = some [1, 2, 3, 4] ∧ checksum bitwise H 0 2 2 = some (crc32 []) ∧
      ¬Covers (checksum bitwise H 0 2 2) 2 2 [1, 2, 3, 4] ∧
      ¬Covers (checksum bitwise H 0 1 (sizeLimit - 1)) 1 (sizeLimit - 1) [1, 2, 3, 4] := by
  refine ⟨_, rfl, rfl, ?_, ?_, ?_⟩
  · decide
  · intro hcovers
    have hcrc : checksum bitwise _ 0 2 2 = some (crc32 [3, 4]) := hcovers
    exact absurd hcrc (by decide +kernel)
  · intro hcovers
    exact hcovers rfl

end Nodeoze.Buffer
