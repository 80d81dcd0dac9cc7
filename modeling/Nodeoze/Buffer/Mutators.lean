import Nodeoze.Buffer.Basic

/-!
# The rest of the buffer's interface

The operations that `Basic` leaves out, under the same conventions: each acts on the handle in slot
`i`, a null `m_blk` is an empty slot, and what is undefined is `none`.  Two branches are modelled
exactly as the source has them although they look wrong: `assign` and `append` reallocate the block
without reading `m_data` and `m_size` back from it, and `mem_blk::detach` sets the count to zero
while the handle stays on the block.

`step` is the debug build: it stops at the first assertion that fails.
-/

namespace Nodeoze.Buffer

open RefHeap Splice

inductive Errc
  | noBufferSpace
  | invalidArgument
  deriving DecidableEq, Repr

/-- The bytes that `append` is given: memory of the caller's own, or the range of another handle,
which is read when it is copied and not before. -/
inductive Source
  | bytes (data : List UInt8)
  | range (data : Option Ptr) (nbytes : Nat)

namespace Source

def nbytes : Source → Nat
  | .bytes data => data.length
  | .range _ n => n

/-- `src != nullptr && nbytes > 0` -/
def present : Source → Bool
  | .bytes data => !data.isEmpty
  | .range data n => data.isSome && decide (0 < n)

def read (H : Heap) : Source → Option (List UInt8)
  | .bytes data => some data
  | .range data n => H.read data n

end Source

/-- `SIZE_MAX + 1` -/
def sizeLimit : Nat := 2 ^ 64

section Operations

variable (junk : Nat → Nat → UInt8) (H : Heap) (i : Nat)

/-- `m_size` and `m_data` of a handle; a null handle has neither. -/
def sizeOf (H : Heap) (i : Nat) : Nat := ((H.bufs i).map Handle.size).getD 0

def dataOf (H : Heap) (i : Nat) : Option Ptr := (H.bufs i).bind Handle.data

/-- `m_size = nbytes` -/
def setSize (nbytes : Nat) : Heap :=
  match H.bufs i with
  | none => H
  | some h => H.setBuf i (some { h with size := nbytes })

/-- `assign( data, length, ec )`.  The branch that reallocates leaves `m_data` where it was and copies
`m_size` bytes, which it has just set to zero. -/
def assign (data : List UInt8) : Option Heap := do
  if data.isEmpty then pure (setSize H i 0)
  else if ← isWritable H i then
    let h ← H.bufs i
    let B ← H.blks h.blk
    if data.length ≤ B.mem.length then
      let H ← H.write (B.data h.blk) data
      pure (H.setBuf i (some ⟨h.blk, B.data h.blk, data.length⟩))
    else
      pure ((setSize H i 0).grow h.blk (malloc junk H.next (data.length - B.mem.length)))
  else pure ((unshare H i).attach i data .copyOnWrite)

/-- `append( src, nbytes, ec )`.  The branch that reallocates copies the bytes behind the old ones and
changes neither `m_data` nor `m_size`. -/
def append (src : Source) : Option Heap := do
  if !src.present then pure H
  else if ← isWritable H i then
    let H ← normalize H i
    let h ← H.bufs i
    let B ← H.blks h.blk
    if h.size + src.nbytes > B.mem.length then
      let H := H.grow h.blk (malloc junk H.next (h.size + src.nbytes - B.mem.length))
      let bytes ← src.read H
      H.write (some ⟨h.blk, B.gen + 1, h.size⟩) bytes
    else
      let bytes ← src.read H
      let H ← H.write (some ⟨h.blk, B.gen, h.size⟩) bytes
      pure (H.setBuf i (some { h with size := h.size + src.nbytes }))
  else
    let front ← H.content i
    let back ← src.read H
    pure ((unshare H i).attach i (front ++ back) .copyOnWrite)

/-- `append( rhs )` -/
def appendBuffer (j : Nat) : Option Heap := append junk H i (.range (dataOf H j) (sizeOf H j))

/-- `assign( data, pos, length )`: cut at `pos`, then append. -/
def assignAt (src : Source) (pos : Nat) : Option Heap :=
  append junk (setSize H i (min pos (sizeOf H i))) i src

/-- `assign( buf, pos )` -/
def assignBufferAt (j pos : Nat) : Option Heap :=
  assignAt junk H i (.range (dataOf H j) (sizeOf H j)) pos

/-- `clear()` -/
def clear : Heap := (unshare H i).attach i [] .copyOnWrite

/-- `fill( value, ec )` -/
def fill (value : UInt8) : Option Heap := do
  if sizeOf H i = 0 then pure H
  else if ← isWritable H i then
    H.write (dataOf H i) (List.replicate (sizeOf H i) value)
  else pure ((unshare H i).attach i (List.replicate (sizeOf H i) value) .copyOnWrite)

/-- `put( index, data, length )`, and `put( index, value )` with one byte: unchecked.  A store through
the pointer that `mutable_data()` returns is the same. -/
def put (index : Nat) (bytes : List UInt8) : Option Heap := do
  let H ← mutableData H i
  rputn H i index bytes

/-- `put( index, value, ec )` -/
def putEc (index : Nat) (value : UInt8) : Option (Heap × Option Errc) := do
  if dataOf H i = none then pure (H, some .noBufferSpace)
  else if index ≥ sizeOf H i then pure (H, some .invalidArgument)
  else
    let H ← put H i index [value]
    pure (H, none)

/-- `put( index, data, length, ec )`: the sum may wrap. -/
def putnEc (index : Nat) (bytes : List UInt8) : Option (Heap × Option Errc) := do
  if dataOf H i = none then pure (H, some .noBufferSpace)
  else if (index + bytes.length) % sizeLimit ≥ sizeOf H i then pure (H, some .invalidArgument)
  else
    let H ← put H i index bytes
    pure (H, none)

/-- `end - from` in `size_type`. -/
def difference (end_ from_ : Nat) : Nat :=
  if from_ ≤ end_ then end_ - from_ else end_ + sizeLimit - from_

/-- `rotate( to, from, end )`: moves `end - from` bytes. -/
def rotate (to_ from_ end_ : Nat) : Option (Heap × Option Errc) := do
  if sizeOf H i = 0 then pure (H, some .noBufferSpace)
  else if ¬ (to_ < sizeOf H i ∧ from_ < sizeOf H i ∧ end_ ≤ sizeOf H i) then
    pure (H, some .invalidArgument)
  else
    let H ← mutableData H i
    let h ← H.bufs i
    let bytes ← H.read (h.at from_) (difference end_ from_)
    let H ← H.write (h.at to_) bytes
    pure (H, none)

/-- `set_policy( pol )`: the three `make_` functions differ in the policy they set. -/
def setPolicy (pol : Policy) : Option Heap := do
  if ← isPolicy H i pol then pure H
  else
    let H ← forceUnique H i
    let h ← H.bufs i
    let B ← H.blks h.blk
    pure (H.setBlk h.blk (some { B with tag := pol }))

/-- `detach()`: the memory goes to the caller and the block stays, empty and with no reference counted. -/
def detach : Option Heap := do
  let h ← H.bufs i
  let B ← H.blks h.blk
  if B.refs = 1 then
    let H := H.setBlk h.blk (some ⟨[], B.gen + 1, 0, .copyOnWrite⟩)
    if B.mem = [] then pure H else pure (H.setBuf i (some ⟨h.blk, none, 0⟩))
  else pure H

/-- `operator=( const buffer & )` -/
def copyAssign (j : Nat) : Option Heap :=
  if i = j then some H
  else do
    let H := unshare H i
    let k ← H.bufs j
    let B ← H.blks k.blk
    if B.tag = .exclusive then
      let bytes ← H.content j
      pure (H.attach i bytes .copyOnWrite)
    else pure (H.share i k)

/-- `swap( rhs )` with a handle that is null: `m_blk`, `m_data` and `m_size` change places. -/
def take (j : Nat) : Heap := (H.setBuf i (H.bufs j)).setBuf j none

/-- `operator=( buffer && )` -/
def moveAssign (j : Nat) : Heap := if i = j then H else take (unshare H i) i j

end Operations

/-- `buffer( buffer && )`: the new handle is in slot `H.slots`. -/
def moveConstruct (H : Heap) (j : Nat) : Heap := take H.push H.slots j

/-! ## The class's own invariants -/

/-- `[m_data, m_data + m_size)` lies in the block, and null stands for null. -/
def seated (h : Handle) (B : Block UInt8 Policy) : Bool :=
  match h.data with
  | none => decide (B.mem = []) && decide (h.size = 0)
  | some p => decide (B.mem ≠ []) && decide (p.blk = h.blk) && decide (p.gen = B.gen) &&
      decide (p.off + h.size ≤ B.mem.length)

/-- `buffer::invariants()` -/
def invariants (H : Heap) (i : Nat) : Bool :=
  match H.bufs i with
  | none => false
  | some h =>
    match H.blks h.blk with
    | none => false
    | some B => seated h B && !(decide (B.tag = .exclusive) && decide (1 < B.refs))

/-! ## Runs of the debug build -/

/-- A public operation on handles named by their slots.  A constructor makes a new slot. -/
inductive Op
  | allocate (size : Nat) (pol : Policy)
  | construct (data : List UInt8) (pol : Policy)
  | copyConstruct (j : Nat)
  | moveConstruct (j : Nat)
  | slice (j offset len : Nat) (forceCopy : Bool)
  | copyAssign (i j : Nat)
  | moveAssign (i j : Nat)
  | assign (i : Nat) (data : List UInt8)
  | assignAt (i : Nat) (data : List UInt8) (pos : Nat)
  | assignBufferAt (i j pos : Nat)
  | append (i : Nat) (data : List UInt8)
  | appendBuffer (i j : Nat)
  | fill (i : Nat) (value : UInt8)
  | size (i nbytes : Nat)
  | put (i index : Nat) (bytes : List UInt8)
  | putEc (i index : Nat) (value : UInt8)
  | putnEc (i index : Nat) (bytes : List UInt8)
  | rotate (i to_ from_ end_ : Nat)
  | clear (i : Nat)
  | clone (i : Nat)
  | forceUnique (i : Nat)
  | forceUniqueN (i nbytes : Nat)
  | setPolicy (i : Nat) (pol : Policy)
  | detach (i : Nat)
  | destroy (i : Nat)

/-- The handle that the operation acts on; for a constructor the one it makes. -/
def Op.target (H : Heap) : Op → Nat
  | .allocate .. | .construct .. | .copyConstruct .. | .moveConstruct .. | .slice .. => H.slots
  | .copyAssign i _ | .moveAssign i _ | .assign i _ | .assignAt i _ _ | .assignBufferAt i _ _
  | .append i _ | .appendBuffer i _ | .fill i _ | .size i _ | .put i _ _ | .putEc i _ _
  | .putnEc i _ _ | .rotate i _ _ _ | .clear i | .clone i | .forceUnique i | .forceUniqueN i _
  | .setPolicy i _ | .detach i | .destroy i => i

section Runs

variable (junk : Nat → Nat → UInt8)

/-- The operation without its assertions. -/
def exec (H : Heap) : Op → Option Heap
  | .allocate n pol => some (allocate junk H n pol)
  | .construct data pol => some (construct H data pol)
  | .copyConstruct j => adopt H j
  | .moveConstruct j => some (moveConstruct H j)
  | .slice j offset len forceCopy => slice H j offset len forceCopy
  | .copyAssign i j => copyAssign H i j
  | .moveAssign i j => some (moveAssign H i j)
  | .assign i data => assign junk H i data
  | .assignAt i data pos => assignAt junk H i (.bytes data) pos
  | .assignBufferAt i j pos => assignBufferAt junk H i j pos
  | .append i data => append junk H i (.bytes data)
  | .appendBuffer i j => appendBuffer junk H i j
  | .fill i value => fill H i value
  | .size i n => size junk H i n
  | .put i index bytes => put H i index bytes
  | .putEc i index value => (putEc H i index value).map Prod.fst
  | .putnEc i index bytes => (putnEc H i index bytes).map Prod.fst
  | .rotate i to_ from_ end_ => (rotate H i to_ from_ end_).map Prod.fst
  | .clear i => some (clear H i)
  | .clone i => clone H i
  | .forceUnique i => forceUnique H i
  | .forceUniqueN i n => forceUniqueN junk H i n
  | .setPolicy i pol => setPolicy H i pol
  | .detach i => detach H i
  | .destroy i => some (unshare H i)

/-- The assertions on the way in: `assert( invariants() )` in `append`, `fill`, `size` and `slice`, and
the bound in `force_unique( nbytes )`. -/
def enters (H : Heap) : Op → Bool
  | .slice j _ _ _ => invariants H j
  | .append i _ | .appendBuffer i _ | .fill i _ | .size i _ => invariants H i
  | .assignAt i _ pos | .assignBufferAt i _ pos =>
    invariants (setSize H i (min pos (sizeOf H i))) i
  | .forceUniqueN i n => decide (n ≤ sizeOf H i)
  | _ => true

/-- `assert( m_blk->refs() > 0 )` in `unshare`, for the block that the handle has left. -/
def leaves (H H' : Heap) (i : Nat) : Bool :=
  match H.bufs i with
  | none => true
  | some h =>
    if (H'.bufs i).map Handle.blk = some h.blk then true
    else match H.blks h.blk with
      | none => false
      | some B => decide (0 < B.refs)

/-- The assertions on the way out: `assert( invariants() )`, in `slice` of both handles. -/
def returns (H' : Heap) : Op → Bool
  | .slice j _ _ _ => invariants H' j && invariants H' (H'.slots - 1)
  | .copyAssign i _ | .moveAssign i _ | .append i _ | .appendBuffer i _ | .assignAt i _ _
  | .assignBufferAt i _ _ | .size i _ => invariants H' i
  | _ => true

/-- One operation of the debug build; `none` is a failed assertion or an undefined access. -/
def step (H : Heap) (op : Op) : Option Heap := do
  if enters H op then
    let H' ← exec junk H op
    if leaves H H' (op.target H) && returns H' op then pure H' else none
  else none

def run (H : Heap) : List Op → Option Heap
  | [] => some H
  | op :: ops => (step junk H op).bind fun H' => run H' ops

end Runs

end Nodeoze.Buffer
