import Nodeoze.Bstream.Obstreambuf
import Nodeoze.Buffer.Spec

/-!
# The output buffer in memory

`obmembuf` keeps its bytes in a `buffer` that it enlarges on demand and hands out slices of.  A
slice shares the block, so `get_buffer` clears the flag `writable`, and the next write makes the
buffer unique again, copying what is in front of the position.
-/

namespace Nodeoze.Bstream

open RefHeap Buffer

/-- Behind the window: the heap, the slot of `m_buf`, and where `pbase` points.  `junk` is what
fresh memory holds. -/
structure Membuf where
  junk : Nat → Nat → UInt8
  heap : Heap
  buf : Nat
  pbase : Option Ptr

abbrev Obmembuf := Obstreambuf Membuf

/-- An operation whose behaviour may be undefined. -/
def defined {α : Type} : Option α → Except Failure α
  | some a => .ok a
  | none => .error .undefined

namespace Obmembuf

def setHeap (s : Obmembuf) (H : Heap) : Obmembuf := { s with dev := { s.dev with heap := H } }

/-- `set_ptrs( m_buf.data(), m_buf.data() + next, m_buf.data() + m_buf.size() )`. -/
def setPtrs (s : Obmembuf) (next : Nat) : Except Failure Obmembuf := do
  let h ← defined (s.dev.heap.bufs s.dev.buf)
  pure { s with dev := { s.dev with pbase := h.data }, pnext := next, pend := h.size }

def store (s : Obmembuf) (off : Nat) (src : List UInt8) : Except Failure Obmembuf := do
  let H ← defined (s.dev.heap.write (s.dev.pbase.map (Ptr.add · off)) src)
  pure (setHeap s H)

instance : Sink Membuf where
  store := store
  reallyFlush := pure

def reallyMakeWritable (s : Obmembuf) : Except Failure Obmembuf := do
  if ← defined (isWritable s.dev.heap s.dev.buf) then pure s
  else
    let pos := s.pnext
    let H ← defined (forceUniqueN s.dev.junk s.dev.heap s.dev.buf pos)
    setPtrs (setHeap s H) pos

def reallyTouch (s : Obmembuf) : Except Failure Obmembuf :=
  let hwm := s.highWatermark
  let pos := s.ppos
  if hwm < pos then do
    let s := { s with dirtyStart := hwm }
    let s ← store s s.dirtyStart (List.replicate (pos - hwm) 0)
    Obstreambuf.flush { s with dirty := true }
  else pure { s with lastTouched := pos }

def resize (s : Obmembuf) (size : Nat) : Except Failure Obmembuf := do
  let cushionedSize := size * 3 / 2
  let H ← defined (Buffer.size s.dev.junk s.dev.heap s.dev.buf (max 16 cushionedSize))
  pure (setHeap s H)

def reallyOverflow (s : Obmembuf) (n : Nat) : Except Failure Obmembuf := do
  let pos := s.ppos
  let required := s.pnext + n
  let s ← resize s required
  setPtrs s pos

instance : Virtuals Membuf where
  reallyMakeWritable := reallyMakeWritable
  reallyTouch := reallyTouch
  reallyOverflow := reallyOverflow

def seek (s : Obmembuf) (where_ : SeekAnchor) (offset : Int) :
    Except Failure (Option Nat × Obmembuf) := do
  let s ← s.flush
  let result := s.target where_ offset
  if result < 0 then pure (none, s)
  else if s.pend ≤ result.toNat then
    let s ← resize s result.toNat
    let s ← setPtrs s result.toNat
    pure (some result.toNat, s)
  else pure (some result.toNat, { s with pnext := result.toNat })

def clear (s : Obmembuf) : Except Failure Obmembuf := do
  let s ← setPtrs s 0
  pure { s with highWatermark := 0, lastTouched := 0, dirty := false }

/-- `get_buffer( force_copy )`: the slot of the buffer it returns. -/
def getBuffer (s : Obmembuf) (forceCopy : Bool) : Except Failure (Nat × Obmembuf) := do
  let cow ← defined (isPolicy s.dev.heap s.dev.buf .copyOnWrite)
  let s : Obmembuf := if !forceCopy && cow then { s with writable := false } else s
  let s := if s.dirty then s.setHighWatermark else s
  let H ← defined (slice s.dev.heap s.dev.buf 0 s.highWatermark forceCopy)
  pure (s.dev.heap.slots, setHeap s H)

/-- `obmembuf( size, pol )`. -/
def ofCapacity (junk : Nat → Nat → UInt8) (H : Heap) (size : Nat) (pol : Policy) :
    Except Failure Obmembuf :=
  setPtrs (.init ⟨junk, allocate junk H size pol, H.slots, none⟩) 0

/-- `obmembuf( buffer&& )`: slot `i` is moved into the stream buffer. -/
def ofBuffer (junk : Nat → Nat → UInt8) (H : Heap) (i : Nat) : Except Failure Obmembuf :=
  setPtrs (.init ⟨junk, H, i, none⟩) 0

end Obmembuf

end Nodeoze.Bstream
