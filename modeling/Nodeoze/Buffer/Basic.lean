import Nodeoze.Lib.RefHeap

/-!
# Buffers

A `buffer` is a handle on a reference-counted `mem_blk`: a block, a pointer into it and a size.
Copies and slices share the block unless its policy is `exclusive`; a shared `copy_on_write` block
is cloned before it is changed, a `no_copy_on_write` block is changed in place for everybody.

The operations act on the handle in slot `i` of the heap.  Asserts are compiled out, as in the
release build; what would then be undefined (a null handle, a pointer that dangles, an access
outside a block) is `none`.  Allocations succeed, and what fresh memory holds is the oracle
`junk`: byte `k` of the `n`-th allocation is `junk n k`.
-/

namespace Nodeoze.Buffer

open RefHeap Splice

inductive Policy
  | copyOnWrite
  | noCopyOnWrite
  | exclusive
  deriving DecidableEq, Repr

abbrev Heap := RefHeap UInt8 Policy

/-- The policies under which a handle may rely on its range. -/
def guarded (pol : Policy) : Prop := pol ≠ .noCopyOnWrite

/-- The bytes of an uninitialised allocation. -/
def malloc (junk : Nat → Nat → UInt8) (alloc n : Nat) : List UInt8 := (List.range n).map (junk alloc)

@[simp] theorem length_malloc (junk : Nat → Nat → UInt8) (alloc n : Nat) :
    (malloc junk alloc n).length = n := by
  simp [malloc]

section Operations

variable (junk : Nat → Nat → UInt8) (H : Heap) (i : Nat)

/-- `buffer( size, pol )`: a new handle, in slot `H.slots`, on uninitialised memory. -/
def allocate (size : Nat) (pol : Policy) : Heap :=
  H.push.attach H.slots (malloc junk H.next size) pol

/-- `buffer( data, size, pol )`: a new handle on a copy of the data. -/
def construct (data : List UInt8) (pol : Policy) : Heap := H.push.attach H.slots data pol

def unshare : Heap := H.detach i

def isUnique : Option Bool := do
  let h ← H.bufs i
  let B ← H.blks h.blk
  pure (B.refs = 1)

def isPolicy (pol : Policy) : Option Bool := do
  let h ← H.bufs i
  let B ← H.blks h.blk
  pure (B.tag = pol)

def isWritable : Option Bool := do
  let unique ← isUnique H i
  let free ← isPolicy H i .noCopyOnWrite
  pure (unique || free)

/-- `clone()`: the new block is filled before the old one is given up. -/
def clone : Option Heap := do
  let bytes ← H.content i
  pure ((unshare H i).attach i bytes .copyOnWrite)

def forceUnique : Option Heap := do
  if ← isUnique H i then pure H else clone H i

/-- `force_unique( nbytes )`: a new block of the same size, of which only the first `nbytes` bytes
are copied, and from the start of the old block. -/
def forceUniqueN (nbytes : Nat) : Option Heap := do
  if ← isUnique H i then pure H
  else
    let h ← H.bufs i
    let B ← H.blks h.blk
    let bytes ← H.read (B.data h.blk) nbytes
    if nbytes ≤ h.size then
      pure ((unshare H i).attach i (splice (malloc junk H.next h.size) 0 bytes) .copyOnWrite)
    else none

/-- Move the range of the handle to the start of its block. -/
def normalize : Option Heap := do
  let h ← H.bufs i
  let B ← H.blks h.blk
  match h.data with
  | none => pure H
  | some p =>
    if 0 < p.off then
      let bytes ← H.content i
      let H ← H.write (B.data h.blk) bytes
      pure (H.setBuf i (some { h with data := B.data h.blk }))
    else pure H

/-- `size( nbytes )`. -/
def size (nbytes : Nat) : Option Heap := do
  let h ← H.bufs i
  if nbytes ≤ h.size then pure (H.setBuf i (some { h with size := nbytes }))
  else if ← isWritable H i then
    let H ← normalize H i
    let h ← H.bufs i
    let B ← H.blks h.blk
    if nbytes > B.mem.length then
      let pad := malloc junk H.next (nbytes - B.mem.length)
      let B' : Block UInt8 Policy := { B with mem := B.mem ++ pad, gen := B.gen + 1 }
      pure ((H.grow h.blk pad).setBuf i (some ⟨h.blk, B'.data h.blk, nbytes⟩))
    else pure (H.setBuf i (some { h with size := nbytes }))
  else
    let bytes ← H.content i
    pure ((unshare H i).attach i (splice (malloc junk H.next nbytes) 0 bytes) .copyOnWrite)

/-- `slice( offset, len, force_copy )`: the result is in slot `H.slots`. -/
def slice (offset len : Nat) (forceCopy : Bool) : Option Heap := do
  let h ← H.bufs i
  let B ← H.blks h.blk
  let n := if offset < h.size then min len (h.size - offset) else 0
  if n = 0 then pure (H.push.attach H.slots [] .copyOnWrite)
  else if B.tag = .exclusive ∨ forceCopy then
    let bytes ← H.read (h.at offset) n
    pure (H.push.attach H.slots bytes .copyOnWrite)
  else pure (H.push.share H.slots ⟨h.blk, h.at offset, n⟩)

/-- The copy constructor: the copy is in slot `H.slots`. -/
def adopt : Option Heap := do
  let h ← H.bufs i
  let B ← H.blks h.blk
  if B.tag = .exclusive then
    let bytes ← H.content i
    pure (H.push.attach H.slots bytes .copyOnWrite)
  else pure (H.push.share H.slots h)

/-- `mutable_data()`, up to the pointer it returns. -/
def mutableData : Option Heap := do
  if ← isWritable H i then pure H else forceUnique H i

/-- `rput` and `rputn`: an unchecked store. -/
def rputn (pos : Nat) (bytes : List UInt8) : Option Heap := do
  let h ← H.bufs i
  H.write (h.at pos) bytes

end Operations

end Nodeoze.Buffer
