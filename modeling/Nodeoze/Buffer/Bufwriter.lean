import Nodeoze.Buffer.Spec

/-!
# The growing writer over a buffer

`bufwriter` appends to a buffer that it enlarges on demand, and hands out copies of it.  The
copies share the block until the next write, which then clones it, so what was handed out does not
change.  `Written H w bytes` is its invariant: the buffer shows `bytes` in front of the position.
-/

namespace Nodeoze.Buffer

open RefHeap Splice

/-- The slot of `m_buf`, and `m_pos`. -/
structure Bufwriter where
  buf : Nat
  pos : Nat
  deriving DecidableEq, Repr

namespace Bufwriter

section Operations

variable (junk : Nat → Nat → UInt8) (H : Heap) (w : Bufwriter)

/-- `bufwriter( size )`. -/
def create (size : Nat) : Heap × Bufwriter := (allocate junk H size .copyOnWrite, ⟨H.slots, 0⟩)

def reset : Bufwriter := { w with pos := 0 }

/-- Make room for `n` bytes behind the position, in memory that may be changed. -/
def accommodate (n : Nat) : Option Heap := do
  let h ← H.bufs w.buf
  let remaining := h.size - w.pos
  let H ← if n > remaining then
      let required := w.pos + n
      Buffer.size junk H w.buf (3 * required / 2)
    else pure H
  mutableData H w.buf

def advance (n : Nat) : Bufwriter := { w with pos := w.pos + n }

def putn (src : List UInt8) : Option (Heap × Bufwriter) := do
  let H ← accommodate junk H w src.length
  let H ← rputn H w.buf w.pos src
  pure (H, w.advance src.length)

def put (b : UInt8) : Option (Heap × Bufwriter) := putn junk H w [b]

/-- `get_buffer()`: the copy is in slot `H.slots`. -/
def getBuffer : Option Heap := do
  let H ← Buffer.size junk H w.buf w.pos
  adopt H w.buf

end Operations

/-- The buffer of the writer shows `bytes` in front of the position. -/
def Written (H : Heap) (w : Bufwriter) (bytes : List UInt8) : Prop :=
  ∃ h B c, Owned H w.buf h B c ∧ guarded B.tag ∧ w.pos ≤ h.size ∧ bytes = c.take w.pos

section

variable (junk : Nat → Nat → UInt8) {H : Heap} {w : Bufwriter} {bytes : List UInt8}

theorem written_create (wf : H.WF guarded) (size : Nat) :
    Written (create junk H size).1 (create junk H size).2 [] ∧
      Frame H.slots H (create junk H size).1 := by
  obtain ⟨h, B, o, hf, -, -, ht, -⟩ := owned_construct wf (malloc junk H.next size) .copyOnWrite
  refine ⟨⟨h, B, _, o, ?_, Nat.zero_le _, rfl⟩, hf⟩
  rw [ht]
  exact Policy.noConfusion

theorem written_reset (hw : Written H w bytes) : Written H w.reset [] := by
  obtain ⟨h, B, c, o, hg, -, -⟩ := hw
  exact ⟨h, B, c, o, hg, Nat.zero_le _, rfl⟩

theorem Written.accommodate (hw : Written H w bytes) (n : Nat) :
    ∃ H' h B c, accommodate junk H w n = some H' ∧ Owned H' w.buf h B c ∧ guarded B.tag ∧
      B.refs = 1 ∧ w.pos + n ≤ h.size ∧ bytes = c.take w.pos ∧ Frame w.buf H H' := by
  obtain ⟨h, B, c, o, hg, hpos, rfl⟩ := hw
  by_cases hn : n > h.size - w.pos
  · obtain ⟨H₁, h₁, B₁, c₁, hsize, o₁, hlen₁, htake₁, hf₁, -, hg₁, -⟩ :=
      o.size junk (3 * (w.pos + n) / 2)
    obtain ⟨H₂, h₂, B₂, hmut, o₂, hf₂, hw₂, -, hg₂⟩ := o₁.mutableData
    have hle : h.size ≤ 3 * (w.pos + n) / 2 := by omega
    have hprefix : c.take w.pos = c₁.take w.pos := by
      have hall : c.take (3 * (w.pos + n) / 2) = c :=
        List.take_of_length_le (by rw [o.length]; exact hle)
      rw [hall] at htake₁
      rw [← htake₁, List.take_take, min_eq_left hpos]
    refine ⟨H₂, h₂, B₂, c₁, ?_, o₂, hg₂ (hg₁ hg), hw₂.unique (hg₂ (hg₁ hg)), ?_, hprefix,
      (hf₁ hg).trans hf₂⟩
    · simp [Bufwriter.accommodate, o.buf, hn, hsize, hmut]
    · rw [← o₂.length, hlen₁]
      omega
  · obtain ⟨H₂, h₂, B₂, hmut, o₂, hf₂, hw₂, -, hg₂⟩ := o.mutableData
    refine ⟨H₂, h₂, B₂, c, ?_, o₂, hg₂ hg, hw₂.unique (hg₂ hg), ?_, rfl, hf₂⟩
    · simp [Bufwriter.accommodate, o.buf, hn, hmut]
    · rw [← o₂.length, o.length]
      omega

/-- Storing behind the position, in memory that was made room in. -/
theorem Written.store (hw : Written H w bytes) (src : List UInt8) :
    ∃ H₁ H', Bufwriter.accommodate junk H w src.length = some H₁ ∧ rputn H₁ w.buf w.pos src = some H' ∧
      Written H' (w.advance src.length) (bytes ++ src) ∧ Frame w.buf H H' := by
  obtain ⟨H₁, h, B, c, hacc, o, hg, huniq, hroom, rfl, hf⟩ := hw.accommodate junk src.length
  obtain ⟨H', B', hput, -, o', hr, ht, -, hf'⟩ := o.rputn hroom
  refine ⟨H₁, H', hacc, hput, ⟨h, B', _, o', by rw [ht]; exact hg, hroom, ?_⟩, hf.trans (hf' huniq)⟩
  exact (take_splice _ _ _ (by rw [o.length]; omega)).symm

theorem Written.putn (hw : Written H w bytes) (src : List UInt8) :
    ∃ H', Bufwriter.putn junk H w src = some (H', w.advance src.length) ∧
      Written H' (w.advance src.length) (bytes ++ src) ∧ Frame w.buf H H' := by
  obtain ⟨H₁, H', hacc, hput, hw', hf⟩ := hw.store junk src
  exact ⟨H', by simp [Bufwriter.putn, hacc, hput], hw', hf⟩

/-- What is handed out is what was written, and nobody else notices. -/
theorem Written.getBuffer (hw : Written H w bytes) :
    ∃ H', Bufwriter.getBuffer junk H w = some H' ∧ Written H' w bytes ∧
      H'.content H.slots = some bytes ∧
      H.slots < H'.slots ∧
      ∀ j, j ≠ w.buf → j ≠ H.slots → H'.bufs j = H.bufs j ∧ H'.content j = H.content j := by
  obtain ⟨h, B, c, o, hg, hpos, rfl⟩ := hw
  obtain ⟨c₁, o₁, hlen₁, htake₁⟩ := o.resize (Or.inl hpos)
  have hc₁ : c₁ = c.take w.pos := by
    rw [← htake₁, List.take_of_length_le (by omega)]
  obtain ⟨H', B', hadopt, o', hcontent, hf', ht', -, -⟩ := o₁.adopt
  have hf : Frame w.buf H (H.setBuf w.buf (some { h with size := w.pos })) := frame_setBuf _
  refine ⟨H', ?_, ⟨_, B', _, o', by rw [ht']; exact hg, le_rfl, ?_⟩, ?_, ?_, fun j hj hs => ?_⟩
  · simp [Bufwriter.getBuffer, Buffer.size, o.buf, hpos, hadopt]
  · rw [← hc₁, List.take_of_length_le (by omega)]
  · rw [← hc₁]
    exact hcontent
  · by_contra hle
    have hnone := o'.wf.absent H.slots (by omega)
    change H'.content H.slots = some c₁ at hcontent
    simp [RefHeap.content, hnone] at hcontent
  · exact ⟨(hf'.bufs j hs).trans (hf.bufs j hj), (hf'.content j hs).trans (hf.content j hj)⟩

end

end Bufwriter

end Nodeoze.Buffer
