import Mathlib.Algebra.Order.Ring.Int
import Nodeoze.Bstream.WholeFormat

/-!
# The frames of the raft log

A frame of the log file is a blob followed by the CRC-32 of its bytes.  The blob is the encoding
of a shared pointer to a `frame`, in the context of the four classes of `log_frames.h`; the two
concrete ones are the hard state of the replicant and an update of its state machine.
-/

namespace Nodeoze.Raft

open Reader Bstream

/-- The codes of the raft error category that the log reports. -/
inductive Errc
  | logChecksumError
  | logServerIdError
  | logFrameTypeError
  deriving DecidableEq, Repr

/-- How reading a log file can end early: in the stream classes, with an error of the log, or (of
the model only) in a loop with more rounds than the file has bytes. -/
inductive Fault
  | stream (f : Bstream.Fault)
  | log (e : Errc)
  | loops
  deriving DecidableEq, Repr

/-- Whether it is a `std::system_error`, whose code the log hands on. -/
def Fault.isSystemError : Fault → Bool
  | .stream (.system _) => true
  | .log _ => true
  | _ => false

structure ReplicantState where
  pos : Int64
  dirty : Bool
  self : UInt64
  term : UInt64
  vote : UInt64
  deriving DecidableEq, Repr

structure StateMachineUpdate where
  pos : Int64
  term : UInt64
  index : UInt64
  payload : List UInt8
  deriving DecidableEq, Repr

namespace ReplicantState

/-- `replicant_state( self )` -/
def create (self : UInt64) : ReplicantState := ⟨-1, false, self, 1, 0⟩

def setTerm (s : ReplicantState) (trm : UInt64) : ReplicantState :=
  if trm ≠ s.term then { s with dirty := true, term := trm } else s

def setVote (s : ReplicantState) (id : UInt64) : ReplicantState :=
  if id ≠ s.vote then { s with dirty := true, vote := id } else s

def update (s : ReplicantState) (t v : UInt64) : ReplicantState := (s.setTerm t).setVote v

/-- `update( replicant_state const& )`, which checks whose state it is. -/
def updateFrom (s rhs : ReplicantState) : Except Errc ReplicantState :=
  if rhs.self ≠ s.self then .error .logServerIdError else .ok (s.update rhs.term rhs.vote)

def clean (s : ReplicantState) : ReplicantState := { s with dirty := false }

def clear (s : ReplicantState) (self : UInt64) : ReplicantState :=
  { s with self := self, dirty := false, term := 1, vote := 0 }

@[simp] theorem update_term (s : ReplicantState) (t v : UInt64) : (s.update t v).term = t := by
  unfold update setVote setTerm
  split_ifs <;> simp_all

@[simp] theorem update_vote (s : ReplicantState) (t v : UInt64) : (s.update t v).vote = v := by
  unfold update setVote setTerm
  split_ifs <;> simp_all

@[simp] theorem update_self (s : ReplicantState) (t v : UInt64) : (s.update t v).self = s.self := by
  unfold update setVote setTerm
  split_ifs <;> rfl

end ReplicantState

inductive Frame
  | replicantState (s : ReplicantState)
  | stateMachineUpdate (e : StateMachineUpdate)
  deriving DecidableEq, Repr

/-! ### The checksum -/

/-- One bit of the reflected CRC-32 division. -/
def crcBit (c : UInt32) : UInt32 :=
  if c &&& 1 = 1 then (c >>> 1) ^^^ 0xedb88320 else c >>> 1

/-- `process_byte` of `boost::crc_32_type`. -/
def crcByte (c : UInt32) (b : UInt8) : UInt32 := Nat.repeat crcBit 8 (c ^^^ b.toUInt32)

/-- `buffer::checksum` -/
def checksum (bs : List UInt8) : Nat := (bs.foldl crcByte 0xffffffff ^^^ 0xffffffff).toNat

example : checksum [0x31, 0x32, 0x33, 0x34, 0x35, 0x36, 0x37, 0x38, 0x39] = 0xcbf43926 := by
  decide +kernel

theorem checksum_lt (bs : List UInt8) : checksum bs < 256 ^ 4 :=
  UInt32.toNat_lt (bs.foldl crcByte 0xffffffff ^^^ 0xffffffff)

/-! ### The encoding of a frame -/

/-- `get_log_context`: the classes `frame`, `replicant_state`, `entry` and `state_machine_update`,
numbered by their tags. -/
def logContext : Context where
  bases c := if c = 1 ∨ c = 2 then [0] else if c = 3 then [2] else []
  members c :=
    if c = 0 then [.int true .w64]
    else if c = 1 then [.int false .w64, .int false .w64, .int false .w64]
    else if c = 2 then [.int false .w64, .int false .w64]
    else if c = 3 then [.buffer]
    else []
  isAbstract c := c == 0 || c == 2
  isPolymorphic _ := true
  isBaseOf b d := b == d || (b == 0 && (d == 1 || d == 2 || d == 3)) || (b == 2 && d == 3)
  offset _ _ := 0
  less _ _ _ := false
  equal _ _ _ := false
  widen n := n
  isBaseOf_self := by simp
  offset_self := Program.offsetNone_self
  count_lt := by intro c; split_ifs <;> decide
  less_asymm := Program.compareNone_asymm
  less_erase := Program.compareNone_erase
  equal_erase := Program.compareNone_erase
  types := [0, 1, 2, 3]
  dedupSharedPtrs := true
  order := .big
  types_lt := by decide

namespace Frame

def object : Frame → Val
  | .replicantState s =>
    .obj 1 [.obj 0 [.int true .w64 s.pos.toInt], .int false .w64 s.self.toNat,
      .int false .w64 s.term.toNat, .int false .w64 s.vote.toNat]
  | .stateMachineUpdate e =>
    .obj 3 [.obj 2 [.obj 0 [.int true .w64 e.pos.toInt], .int false .w64 e.term.toNat,
      .int false .w64 e.index.toNat], .buffer e.payload]

/-- The frame as a value of type `frame::ptr`. -/
def toVal (f : Frame) : Val := .shared (.cls 0) 0 f.object

/-- The frame that a `frame::ptr` points at; the flag `dirty` is not streamed. -/
def ofVal : Val → Option Frame
  | .shared _ _ (.obj 1 [.obj 0 [.int _ _ pos], .int _ _ self, .int _ _ term, .int _ _ vote]) =>
    some (.replicantState ⟨.ofInt pos, false, .ofNat self.toNat, .ofNat term.toNat,
      .ofNat vote.toNat⟩)
  | .shared _ _ (.obj 3 [.obj 2 [.obj 0 [.int _ _ pos], .int _ _ term, .int _ _ index],
      .buffer payload]) =>
    some (.stateMachineUpdate ⟨.ofInt pos, .ofNat term.toNat, .ofNat index.toNat, payload⟩)
  | _ => none

/-- The frame as it is read back. -/
def asRead : Frame → Frame
  | .replicantState s => .replicantState { s with dirty := false }
  | .stateMachineUpdate e => .stateMachineUpdate e

/-- What `frame_os << fp` puts on the stream; `put` refuses no frame. -/
def chunks (f : Frame) : List Chunk :=
  match logContext.put f.toVal {} with
  | .ok (ts, _) => ts
  | .error _ => []

/-- The content of `frame_buffer`. -/
def body (f : Frame) : List UInt8 := bytes f.chunks

/-- What `write_frame` puts on the file stream. -/
def filed (f : Frame) : List Chunk :=
  writeBlob .big f.body ++ [putNum .big 4 (checksum f.body)]

def encode (f : Frame) : List UInt8 := bytes f.filed

/-- The size of the frame is a value of the 32-bit size that `write_blob_header` takes. -/
def Fits (f : Frame) : Prop := f.body.length < 2 ^ 32

instance (f : Frame) : Decidable f.Fits := by unfold Fits; exact inferInstance

end Frame

/-- The frame in the bytes of a blob. -/
def decodeFrame (framebuf : List UInt8) : Reader Unit Fault Frame := do
  let fp ← within framebuf {} (mapError .stream (logContext.readAs 5 (.sharedPtr (.cls 0))))
  match Frame.ofVal fp with
  | some f => pure f
  | none => throw (.stream .undefined)

/-- `log::read_frame` -/
def readFrame : Reader Unit Fault Frame := do
  let framebuf ← mapError .stream (readBlob .big)
  let frameChecksum ← mapError .stream (Bstream.getNum .big 4)
  if checksum framebuf ≠ frameChecksum then throw (.log .logChecksumError)
  else decodeFrame framebuf

/-! ### Reading a frame back -/

namespace Frame

theorem chunks_replicantState (s : ReplicantState) :
    (replicantState s).chunks =
      [.byte 0x92, .byte 0x01, .byte 0x94, .byte 0x91] ++
        (putInt .big true s.pos.toInt ++ putUnsigned .big s.self.toNat ++
          putUnsigned .big s.term.toNat ++ putUnsigned .big s.vote.toNat) := by
  simp [chunks, toVal, object, Context.put, Context.putAll, logContext, Except.map, Except.bind,
    SavedTags.find, Context.writeTypeTag, Val.dynamicTy, Context.typeTag, writeArrayHeader, putInt,
    putSigned, putUnsigned, Context.itemCount]
  decide

theorem chunks_stateMachineUpdate (e : StateMachineUpdate) :
    (stateMachineUpdate e).chunks =
      [.byte 0x92, .byte 0x03, .byte 0x92, .byte 0x93, .byte 0x91] ++
        (putInt .big true e.pos.toInt ++ putUnsigned .big e.term.toNat ++
          putUnsigned .big e.index.toNat) ++ writeBlob .big e.payload := by
  simp [chunks, toVal, object, Context.put, Context.putAll, logContext, Except.map, Except.bind,
    SavedTags.find, Context.writeTypeTag, Val.dynamicTy, Context.typeTag, writeArrayHeader, putInt,
    putSigned, putUnsigned, Context.itemCount]
  decide

theorem Fits.payload_lt {e : StateMachineUpdate} (h : (stateMachineUpdate e).Fits) :
    e.payload.length < 2 ^ 32 := by
  refine lt_of_le_of_lt ?_ h
  rw [body, chunks_stateMachineUpdate]
  simp only [writeBlob, bytes_append, List.length_append]
  simp [Chunk.bytes]
  omega

theorem inRange_pos (p : Int64) : InRange true .w64 p.toInt := by
  have h1 := p.toInt_lt
  have h2 := p.le_toInt
  simp only [InRange, if_true, Width.size]
  omega

theorem inRange_word (n : UInt64) : InRange false .w64 n.toNat := by
  have h := n.toNat_lt
  simp only [InRange, Bool.false_eq_true, if_false, Width.size]
  omega

theorem hasTy_base (p : Int64) : HasTy logContext (.cls 0) (.obj 0 [.int true .w64 p.toInt]) :=
  Context.hasTy_obj (.cons (.int (inRange_pos p)) .nil)

theorem points_frame {d : Nat} (h : d = 1 ∨ d = 3) : logContext.Points (.cls 0) (.cls d) := by
  rcases h with rfl | rfl
  · exact .registered (by simp [logContext]) (by simp [logContext]) rfl rfl (.inr rfl)
  · exact .registered (by simp [logContext]) (by simp [logContext]) rfl rfl (.inr rfl)

theorem hasTy_toVal {f : Frame} (h : f.Fits) : HasTy logContext (.sharedPtr (.cls 0)) f.toVal := by
  cases f with
  | replicantState s =>
    refine .shared (points_frame (.inl rfl)) (by decide) (Context.hasTy_obj ?_)
    exact .cons (hasTy_base s.pos) (.cons (.int (inRange_word _))
      (.cons (.int (inRange_word _)) (.cons (.int (inRange_word _)) .nil)))
  | stateMachineUpdate e =>
    refine .shared (points_frame (.inr rfl)) (by decide) (Context.hasTy_obj ?_)
    refine .cons (Context.hasTy_obj ?_) (.cons (.buffer h.payload_lt) .nil)
    exact .cons (hasTy_base e.pos)
      (.cons (.int (inRange_word _)) (.cons (.int (inRange_word _)) .nil))

theorem good_toVal (f : Frame) : logContext.Good f.toVal [] := by
  refine ⟨by cases f <;> rfl, ?_⟩
  intro _ k hk
  cases f <;> simp [toVal, object, Val.repeats, Val.repeatsAll] at hk

theorem coherent_toVal (f : Frame) : f.toVal.Coherent fun _ => f.object := by
  intro n hn
  have hn' : n = (0, f.object) := by
    cases f <;> simpa [toVal, object, Val.nodes] using hn
  rw [hn']

theorem ofVal_rename (f : Frame) (g : Nat → Nat) : ofVal (f.toVal.rename g) = some f.asRead := by
  cases f <;> simp [toVal, object, Val.rename, ofVal, asRead]

theorem depth_toVal (f : Frame) : f.toVal.depth ≤ 5 := by
  cases f <;> simp [toVal, object, Val.depth, Val.depthList]

theorem reads_pointer {f : Frame} (h : f.Fits) :
    ∃ v s', Reads eof (logContext.readAs 5 (.sharedPtr (.cls 0))) {} f.chunks v s' ∧
      ofVal v = some f.asRead := by
  obtain ⟨ts, w', hput, hread⟩ := Context.fresh (hasTy_toVal h) (coherent_toVal f)
  have hts : f.chunks = ts := by rw [chunks, hput]
  rcases hread 5 (depth_toVal f) with ⟨-, v, s', hr, hcp⟩ | ⟨hbad, -⟩
  · refine ⟨v, s', hts ▸ hr, ?_⟩
    rw [hcp.2 rfl, ofVal_rename]
  · exact absurd (good_toVal f) hbad

end Frame

theorem reads_decodeFrame {f : Frame} (h : f.Fits) :
    Reads (.stream eof) (decodeFrame f.body) () [] f.asRead () := by
  obtain ⟨v, s', hr, hv⟩ := Frame.reads_pointer h
  refine (Reads.within (hr.mapError Fault.stream) ()).bind_pure ?_
  rw [hv]

theorem reads_readFrame {f : Frame} (h : f.Fits) :
    Reads (.stream eof) readFrame () f.filed f.asRead () := by
  have hblob := (reads_readBlob .big h ()).mapError Fault.stream
  have hcrc := (reads_getNum .big (checksum_lt f.body) ()).mapError Fault.stream
  have hdecode : Reads (.stream eof)
      (if checksum f.body ≠ checksum f.body then throw (.log .logChecksumError)
        else decodeFrame f.body) () [] f.asRead () := by
    rw [if_neg (not_not.mpr rfl)]
    exact reads_decodeFrame h
  exact hblob.bind (hcrc.bind hdecode)

end Nodeoze.Raft
