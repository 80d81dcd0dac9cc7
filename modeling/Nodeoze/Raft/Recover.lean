import Nodeoze.Raft.Frames

/-!
# Recovering a log from its file

`recover` reads frames until it has reached the size of the file, applies the hard states and
collects the updates.  On a file of complete frames it finds the last hard state and all the
updates.  On a file that ends inside a frame every reader involved reports the end of the file but
one: `get_num` completes a checksum that is cut off with whatever its local held, and if these
happen to be the bytes that were lost, the torn frame is taken for a complete one.
-/

namespace Nodeoze.Raft

open Reader Bstream

/-- The part of the log that `recover` rebuilds. -/
structure Recovered where
  state : ReplicantState
  log : List StateMachineUpdate
  deriving DecidableEq, Repr

namespace Recovered

/-- The `switch` of `recover`; the types leave nothing for its default case. -/
def take (r : Recovered) : Frame → Except Errc Recovered
  | .replicantState s => (r.state.updateFrom s).map fun state => { r with state := state }
  | .stateMachineUpdate e => .ok { r with log := r.log ++ [e] }

end Recovered

/-- The loop of `recover`, with the error that ended it. -/
def recoverLoop (junk : Nat → Nat → UInt8) (fileSize : Nat) :
    Nat → Input Unit → Recovered → Recovered × Option Fault
  | 0, _, r => (r, some .loops)
  | rounds + 1, st, r =>
    if st.pos < fileSize then
      match readFrame junk st with
      | .error e => (r, some e)
      | .ok (f, st) =>
        match r.take f with
        | .error e => (r, some (.log e))
        | .ok r => recoverLoop junk fileSize rounds st r
    else (r, none)

/-- `recover` on a file with the given bytes. -/
def recoverFile (junk : Nat → Nat → UInt8) (file : List UInt8) (r : Recovered) :
    Recovered × Option Fault :=
  recoverLoop junk file.length (file.length + 1) ⟨0, file, 0, ()⟩ r

/-! ### What a list of frames holds -/

def Frame.entry? : Frame → Option StateMachineUpdate
  | .stateMachineUpdate e => some e
  | .replicantState _ => none

/-- The updates among the frames. -/
def entries (fs : List Frame) : List StateMachineUpdate := fs.filterMap Frame.entry?

/-- The term and the vote of the last hard state among the frames. -/
def lastState (d : UInt64 × UInt64) (fs : List Frame) : UInt64 × UInt64 :=
  fs.foldl (fun d f => match f with
    | .replicantState s => (s.term, s.vote)
    | .stateMachineUpdate _ => d) d

/-- The file that consists of the frames. -/
def encodeAll (fs : List Frame) : List UInt8 := fs.flatMap Frame.encode

/-- Every hard state among the frames is one of the replicant `self`. -/
def Owned (self : UInt64) (fs : List Frame) : Prop :=
  ∀ s, Frame.replicantState s ∈ fs → s.self = self

@[simp] theorem entries_append (fs gs : List Frame) : entries (fs ++ gs) = entries fs ++ entries gs :=
  List.filterMap_append

@[simp] theorem entries_replicantState (s : ReplicantState) (fs : List Frame) :
    entries (.replicantState s :: fs) = entries fs := rfl

@[simp] theorem entries_stateMachineUpdate (e : StateMachineUpdate) (fs : List Frame) :
    entries (.stateMachineUpdate e :: fs) = e :: entries fs := rfl

theorem lastState_append (d : UInt64 × UInt64) (fs gs : List Frame) :
    lastState d (fs ++ gs) = lastState (lastState d fs) gs :=
  List.foldl_append

@[simp] theorem encodeAll_append (fs gs : List Frame) :
    encodeAll (fs ++ gs) = encodeAll fs ++ encodeAll gs :=
  List.flatMap_append

@[simp] theorem encodeAll_cons (f : Frame) (fs : List Frame) :
    encodeAll (f :: fs) = f.encode ++ encodeAll fs := rfl

namespace Recovered

/-- What `take` does with a frame of the right replicant. -/
def apply (r : Recovered) : Frame → Recovered
  | .replicantState s => { r with state := r.state.update s.term s.vote }
  | .stateMachineUpdate e => { r with log := r.log ++ [e] }

def replay (r : Recovered) (fs : List Frame) : Recovered := fs.foldl apply r

theorem apply_self (r : Recovered) (f : Frame) : (r.apply f).state.self = r.state.self := by
  cases f <;> simp [apply]

theorem take_asRead {r : Recovered} {f : Frame} (h : Owned r.state.self [f]) :
    r.take f.asRead = .ok (r.apply f) := by
  cases f with
  | replicantState s =>
    have hself : s.self = r.state.self := h s (List.mem_singleton_self _)
    simp [take, apply, Frame.asRead, ReplicantState.updateFrom, hself, Except.map]
  | stateMachineUpdate e => rfl

theorem log_replay (r : Recovered) (fs : List Frame) : (r.replay fs).log = r.log ++ entries fs := by
  induction fs generalizing r with
  | nil => simp [replay, show entries [] = [] from rfl]
  | cons f fs ih =>
    have hstep := ih (r.apply f)
    cases f <;> simpa [replay, apply] using hstep

theorem state_replay (r : Recovered) (fs : List Frame) :
    ((r.replay fs).state.term, (r.replay fs).state.vote) =
      lastState (r.state.term, r.state.vote) fs := by
  induction fs generalizing r with
  | nil => rfl
  | cons f fs ih =>
    have hstep := ih (r.apply f)
    cases f <;> simpa [replay, apply, lastState] using hstep

theorem self_replay (r : Recovered) (fs : List Frame) :
    (r.replay fs).state.self = r.state.self := by
  induction fs generalizing r with
  | nil => rfl
  | cons f fs ih => exact (ih (r.apply f)).trans (apply_self r f)

end Recovered

/-! ### Complete frames -/

theorem readFrame_encode {f : Frame} (h : f.Fits) (junk : Nat → Nat → UInt8) (pos n : Nat)
    (rest : List UInt8) :
    readFrame junk ⟨pos, f.encode ++ rest, n, ()⟩ =
      .ok (f.asRead, ⟨pos + f.encode.length, rest, n, ()⟩) :=
  (reads_readFrame h).full junk pos rest n

theorem encode_pos (f : Frame) : 0 < f.encode.length := by
  simp [Frame.encode, Frame.filed, writeBlob, writeBlobHeader]
  split_ifs <;> simp [Chunk.bytes]

theorem length_le_encodeAll (fs : List Frame) : fs.length ≤ (encodeAll fs).length := by
  induction fs with
  | nil => simp
  | cons f fs ih =>
    have hf := encode_pos f
    simp only [List.length_cons, encodeAll_cons, List.length_append]
    omega

/-- The loop goes through complete frames, whatever follows them. -/
theorem recoverLoop_frames (junk : Nat → Nat → UInt8) (size : Nat) {fs : List Frame}
    (hfits : ∀ f ∈ fs, f.Fits) (rest : List UInt8) (rounds : Nat) :
    ∀ {r : Recovered} (pos : Nat), Owned r.state.self fs → pos + (encodeAll fs).length ≤ size →
      recoverLoop junk size (fs.length + rounds) ⟨pos, encodeAll fs ++ rest, 0, ()⟩ r =
        recoverLoop junk size rounds ⟨pos + (encodeAll fs).length, rest, 0, ()⟩ (r.replay fs) := by
  induction fs with
  | nil =>
    intro r pos _ _
    simp [encodeAll, Recovered.replay]
  | cons f fs ih =>
    intro r pos hown hsize
    obtain ⟨hf, hfs⟩ := List.forall_mem_cons.mp hfits
    have hpos := encode_pos f
    rw [encodeAll_cons, List.length_append] at hsize
    have hlt : pos < size := by omega
    have hf1 : Owned r.state.self [f] := fun s hs => hown s (by simp_all)
    have hfs1 : Owned (r.apply f).state.self fs := by
      rw [r.apply_self f]
      exact fun s hs => hown s (List.mem_cons_of_mem f hs)
    have hstep := ih hfs (pos + f.encode.length) hfs1 (by omega)
    rw [List.length_cons, Nat.succ_add, encodeAll_cons, List.append_assoc]
    simp only [recoverLoop, hlt, if_true, readFrame_encode hf, Recovered.take_asRead hf1]
    rw [hstep, List.length_append, Nat.add_assoc]
    rfl

/-- A file of complete frames is recovered without an error. -/
theorem recoverFile_frames (junk : Nat → Nat → UInt8) {fs : List Frame} (hfits : ∀ f ∈ fs, f.Fits)
    {r : Recovered} (hown : Owned r.state.self fs) :
    recoverFile junk (encodeAll fs) r = (r.replay fs, none) := by
  have hlen := length_le_encodeAll fs
  obtain ⟨k, hk⟩ := Nat.exists_eq_add_of_le hlen
  have hloop := recoverLoop_frames junk (encodeAll fs).length hfits [] (k + 1) 0 hown
    (by omega)
  rw [List.append_nil] at hloop
  rw [recoverFile, show (encodeAll fs).length + 1 = fs.length + (k + 1) by omega, hloop]
  simp [recoverLoop]

/-! ### Torn frames -/

namespace Frame

/-- The frame without its checksum. -/
def blob (f : Frame) : List UInt8 := bytes (writeBlob .big f.body)

/-- The four bytes of the checksum. -/
def crc (f : Frame) : List UInt8 := Endian.Order.big.bytes 4 (checksum f.body)

theorem encode_eq (f : Frame) : f.encode = f.blob ++ f.crc := by
  simp [encode, filed, blob, crc, putNum, Chunk.bytes]

@[simp] theorem length_crc (f : Frame) : f.crc.length = 4 := by
  simp [crc]

end Frame

/-- The bytes `held` of a local are those that the checksum loses when only `j` of its bytes are
there. -/
def Mends (crc : List UInt8) (j : Nat) (held : Nat → UInt8) : Prop :=
  ∀ i, j ≤ i → i < 4 → held i = crc.getD i 0

theorem mends_iff {crc : List UInt8} (hlen : crc.length = 4) {j : Nat} (hj : j < 4)
    (held : Nat → UInt8) :
    Mends crc j held ↔ crc.take j ++ (List.range (4 - j)).map (fun i => held (j + i)) = crc := by
  constructor
  · intro h
    apply List.ext_getElem
    · simp [hlen]
      omega
    · intro i h1 h2
      by_cases hi : i < j
      · rw [List.getElem_append_left (by simp [hlen]; omega), List.getElem_take]
      · have hij : j + (i - j) = i := by omega
        have hheld := h i (by omega) (by omega)
        rw [List.getD_eq_getElem?_getD, List.getElem?_eq_getElem h2] at hheld
        simp [List.getElem_append, hi, hlen, hj.le, hij, hheld]
  · intro h i hji hi
    have hij : j + (i - j) = i := by omega
    rw [List.getD_eq_getElem?_getD, ← h, List.getElem?_append_right (by simp [hlen]; omega)]
    simp [hlen, hj.le, hij, show i - j < 4 - j by omega]

/-- With a part of the checksum, the frame is accepted exactly if the local completes it. -/
theorem readFrame_cut_crc {f : Frame} (h : f.Fits) {j : Nat} (hj : j < 4)
    (junk : Nat → Nat → UInt8) (pos n : Nat) :
    (Mends f.crc j (junk n) ∧ readFrame junk ⟨pos, f.blob ++ f.crc.take j, n, ()⟩ =
      .ok (f.asRead, ⟨pos + f.blob.length + j, [], n + 1, ()⟩)) ∨
    (¬ Mends f.crc j (junk n) ∧ readFrame junk ⟨pos, f.blob ++ f.crc.take j, n, ()⟩ =
      .error (.log .logChecksumError)) := by
  have hblob : (mapError Fault.stream (readBlob .big) : Reader Unit Fault (List UInt8)) junk
      ⟨pos, f.blob ++ f.crc.take j, n, ()⟩ = .ok (f.body, ⟨pos + f.blob.length, f.crc.take j, n, ()⟩) :=
    ((reads_readBlob .big h ()).mapError Fault.stream).full junk pos (f.crc.take j) n
  have hnum : (mapError Fault.stream (Bstream.getNum .big 4) : Reader Unit Fault Nat) junk
      ⟨pos + f.blob.length, f.crc.take j, n, ()⟩ =
      .ok (Endian.Order.big.value
        (f.crc.take j ++ (List.range (4 - j)).map fun i => junk n (j + i)),
        ⟨pos + f.blob.length + j, [], n + 1, ()⟩) := by
    simp [mapError, Bstream.getNum, Reader.getNum, hj, hj.le]
  rw [mends_iff f.length_crc hj, readFrame, bind_ok hblob, bind_ok hnum]
  by_cases hm : f.crc.take j ++ (List.range (4 - j)).map (fun i => junk n (j + i)) = f.crc
  · left
    have hval : checksum f.body = Endian.Order.big.value f.crc := by
      rw [Frame.crc, Endian.Order.value_bytes_of_lt _ (checksum_lt f.body)]
    refine ⟨hm, ?_⟩
    rw [hm, if_neg (not_not.mpr hval)]
    simpa using (reads_decodeFrame h).full junk (pos + f.blob.length + j) [] (n + 1)
  · right
    refine ⟨hm, ?_⟩
    rw [if_pos]
    · rfl
    · intro hval
      apply hm
      have hback := Endian.Order.bytes_value .big
        (f.crc.take j ++ (List.range (4 - j)).map fun i => junk n (j + i))
      have hlen : (f.crc.take j ++ (List.range (4 - j)).map fun i => junk n (j + i)).length = 4 := by
        rw [List.length_append, List.length_take, List.length_map, List.length_range, f.length_crc]
        omega
      rw [hlen, ← hval] at hback
      rw [← hback, Frame.crc]

/-- A number that is cut off is read all the same, and nothing is left. -/
theorem getNum_cut {w : Nat} (hw : w ≠ 1) {bs : List UInt8} (hlen : bs.length < w)
    (junk : Nat → Nat → UInt8) (pos n : Nat) :
    ∃ v, (Bstream.getNum .big w : Istream Unit Nat) junk ⟨pos, bs, n, ()⟩ =
      .ok (v, ⟨pos + bs.length, [], n + 1, ()⟩) := by
  rw [Bstream.getNum, if_neg hw, Reader.getNum, if_pos hlen]
  exact ⟨_, rfl⟩

theorem cutsNum_header {c : UInt8} {bs cs : List UInt8} {k : Nat}
    (h : cutsNum k [.byte c, .num bs, .raw cs] = true) : ∃ j, k = j + 1 ∧ j < bs.length := by
  obtain _ | j := k
  · simp [cutsNum, Chunk.bytes, Chunk.isNum] at h
  · refine ⟨j, rfl, ?_⟩
    by_contra hj
    simp [cutsNum, Chunk.bytes, Chunk.isNum, hj] at h

theorem header_cut {w k : Nat} {c : UInt8} {ns bs : List UInt8} (hw : w ≠ 1) (hns : ns.length = w)
    (hcut : cutsNum k [.byte c, .num ns, .raw bs] = true) {junk : Nat → Nat → UInt8} {pos n : Nat}
    (hhead : ∀ rest, (readBlobHeader .big : Istream Unit Nat) junk ⟨pos, c :: rest, n, ()⟩ =
      (Bstream.getNum .big w : Istream Unit Nat) junk ⟨pos + 1, rest, n, ()⟩) :
    ∃ v p, (readBlobHeader .big : Istream Unit Nat) junk
      ⟨pos, (bytes [.byte c, .num ns, .raw bs]).take k, n, ()⟩ = .ok (v, ⟨p, [], n + 1, ()⟩) := by
  obtain ⟨j, rfl, hj⟩ := cutsNum_header hcut
  have hlen : (ns.take j).length < w := by
    rw [List.length_take]
    omega
  obtain ⟨v, hv⟩ := getNum_cut hw hlen junk (pos + 1) n
  have htake : (bytes [.byte c, .num ns, .raw bs]).take (j + 1) = c :: ns.take j := by
    simp [Chunk.bytes, List.take_append_of_le_length hj.le]
  exact ⟨v, _, by rw [htake, hhead, hv]⟩

/-- A blob header whose length is cut off. -/
theorem readBlobHeader_cut {bs : List UInt8} {k : Nat}
    (hcut : cutsNum k (writeBlob .big bs) = true) (junk : Nat → Nat → UInt8) (pos n : Nat) :
    ∃ v p, (readBlobHeader .big : Istream Unit Nat) junk
      ⟨pos, (bytes (writeBlob .big bs)).take k, n, ()⟩ = .ok (v, ⟨p, [], n + 1, ()⟩) := by
  simp only [writeBlob, writeBlobHeader] at hcut ⊢
  split_ifs at hcut ⊢ with h1 h2
  · simp [cutsNum, putNum, Chunk.isNum] at hcut
  · exact header_cut (w := 2) (by decide) (by simp) hcut fun _ => rfl
  · exact header_cut (w := 4) (by decide) (by simp) hcut fun _ => rfl

/-- Once nothing is left, the rest of `read_frame` fails: either the blob is not there, or it is
empty and no frame. -/
theorem readFrame_of_header_cut {st st' : Input Unit} {junk : Nat → Nat → UInt8} {v : Nat}
    (h : (readBlobHeader .big : Istream Unit Nat) junk st = .ok (v, st')) (hnil : st'.rest = []) :
    ∃ e, readFrame junk st = .error e ∧ e.isSystemError = true := by
  obtain ⟨p, rest, n, u⟩ := st'
  subst hnil
  by_cases hv : 0 < v
  · refine ⟨.stream eof, ?_, rfl⟩
    have hblob : (mapError Fault.stream (readBlob .big) : Reader Unit Fault (List UInt8)) junk st =
        .error (.stream eof) := by
      have hget : (getn eof v : Istream Unit (List UInt8)) junk ⟨p, [], n, u⟩ = .error eof := by
        simp [getn, hv]
      rw [mapError, readBlob, bind_ok h, hget]
    exact bind_error hblob
  · have hblob : (mapError Fault.stream (readBlob .big) : Reader Unit Fault (List UInt8)) junk st =
        .ok ([], ⟨p, [], n, u⟩) := by
      have hget : (getn eof v : Istream Unit (List UInt8)) junk ⟨p, [], n, u⟩ =
          .ok ([], ⟨p, [], n, u⟩) := by
        simp [getn, Nat.eq_zero_of_not_pos hv]
      rw [mapError, readBlob, bind_ok h, hget]
    obtain ⟨c, hc⟩ := getNum_cut (w := 4) (by decide) (show [].length < 4 by decide) junk p n
    have hnum : (mapError Fault.stream (Bstream.getNum .big 4) : Reader Unit Fault Nat) junk
        ⟨p, [], n, u⟩ = .ok (c, ⟨p, [], n + 1, u⟩) := by
      rw [mapError, hc]
      rfl
    have hread : readFrame junk st = _ := (bind_ok hblob).trans (bind_ok hnum)
    rw [hread]
    by_cases hsum : checksum [] ≠ c
    · exact ⟨.log .logChecksumError, by rw [if_pos hsum]; rfl, rfl⟩
    · exact ⟨.stream eof, by rw [if_neg hsum]; rfl, rfl⟩

/-- A blob that is cut off is noticed, whatever the locals hold. -/
theorem readFrame_cut_blob {f : Frame} (h : f.Fits) {k : Nat} (hk : k < f.blob.length)
    (junk : Nat → Nat → UInt8) (pos n : Nat) :
    ∃ e, readFrame junk ⟨pos, f.blob.take k, n, ()⟩ = .error e ∧ e.isSystemError = true := by
  by_cases hcut : cutsNum k (writeBlob .big f.body) = true
  · obtain ⟨v, p, hv⟩ := readBlobHeader_cut hcut junk pos n
    exact readFrame_of_header_cut hv rfl
  · have htorn := ((reads_readBlob .big h ()).mapError Fault.stream).torn junk pos n k hk
      (by simpa using hcut)
    exact ⟨.stream eof, bind_error htorn, rfl⟩

/-! ### Prefixes of a file -/

/-- The frames that lie completely in the first `n` bytes of the file. -/
def completeFrames : List Frame → Nat → List Frame
  | [], _ => []
  | f :: fs, n =>
    if f.encode.length ≤ n then f :: completeFrames fs (n - f.encode.length) else []

/-- The frame inside which the first `n` bytes of the file end, and how many of its bytes they
hold. -/
def tornFrame : List Frame → Nat → Option (Frame × Nat)
  | [], _ => none
  | f :: fs, n =>
    if f.encode.length ≤ n then tornFrame fs (n - f.encode.length)
    else if n = 0 then none
    else some (f, n)

theorem mem_completeFrames {fs : List Frame} {n : Nat} {f : Frame} (h : f ∈ completeFrames fs n) :
    f ∈ fs := by
  induction fs generalizing n with
  | nil => cases h
  | cons g fs ih =>
    unfold completeFrames at h
    split_ifs at h with hle
    · rcases List.mem_cons.mp h with rfl | h
      · exact List.mem_cons_self
      · exact List.mem_cons_of_mem g (ih h)
    · cases h

theorem take_of_tornFrame_none {fs : List Frame} {n : Nat} (h : tornFrame fs n = none) :
    (encodeAll fs).take n = encodeAll (completeFrames fs n) := by
  induction fs generalizing n with
  | nil => simp [encodeAll, completeFrames]
  | cons g fs ih =>
    unfold tornFrame at h
    split_ifs at h with hle h0
    · rw [completeFrames, if_pos hle, encodeAll_cons, encodeAll_cons, List.take_append,
        List.take_of_length_le hle, ih h]
    · rw [completeFrames, if_neg hle, h0]
      rfl

theorem take_of_tornFrame_some {fs : List Frame} {n k : Nat} {f : Frame}
    (h : tornFrame fs n = some (f, k)) :
    f ∈ fs ∧ 0 < k ∧ k < f.encode.length ∧
      (encodeAll fs).take n = encodeAll (completeFrames fs n) ++ f.encode.take k := by
  induction fs generalizing n with
  | nil => cases h
  | cons g fs ih =>
    unfold tornFrame at h
    split_ifs at h with hle h0
    · obtain ⟨hf, hk0, hk, htake⟩ := ih h
      refine ⟨List.mem_cons_of_mem g hf, hk0, hk, ?_⟩
      rw [completeFrames, if_pos hle, encodeAll_cons, encodeAll_cons, List.take_append,
        List.take_of_length_le hle, htake, List.append_assoc]
    · obtain ⟨rfl, rfl⟩ := Prod.mk.inj (Option.some.inj h)
      refine ⟨List.mem_cons_self, Nat.pos_of_ne_zero h0, Nat.lt_of_not_le hle, ?_⟩
      rw [completeFrames, if_neg hle, encodeAll_cons,
        List.take_append_of_le_length (Nat.le_of_not_le hle)]
      rfl

/-- What `restart` starts to recover from. -/
def Recovered.initial (self : UInt64) : Recovered := ⟨(ReplicantState.create self).clear self, []⟩

/-- What `recover` should make of the first `n` bytes of a file: if they end between two frames,
the hard state and the updates of the frames before, and an error code if they do not. -/
def RecoversPrefix (self : UInt64) (junk : Nat → Nat → UInt8) (fs : List Frame) (n : Nat) : Prop :=
  let (r, err) := recoverFile junk ((encodeAll fs).take n) (.initial self)
  match tornFrame fs n with
  | none => err = none ∧ r.log = entries (completeFrames fs n) ∧
      (r.state.term, r.state.vote) = lastState (1, 0) (completeFrames fs n)
  | some _ => ∃ e, err = some e ∧ e.isSystemError = true

/-- The prefix ends inside a checksum, and the local that should hold it completes it. -/
def MendsPrefix (junk : Nat → Nat → UInt8) (fs : List Frame) (n : Nat) : Prop :=
  ∃ f j, tornFrame fs n = some (f, f.blob.length + j) ∧ Mends f.crc j (junk 0)

/-- The loop arrives at what follows the complete frames. -/
theorem recoverFile_torn (junk : Nat → Nat → UInt8) {fs : List Frame} (hfits : ∀ f ∈ fs, f.Fits)
    {r : Recovered} (hown : Owned r.state.self fs) {tail : List UInt8} (htail : 0 < tail.length) :
    ∃ rounds, recoverFile junk (encodeAll fs ++ tail) r =
      recoverLoop junk ((encodeAll fs).length + tail.length) (rounds + 2)
        ⟨(encodeAll fs).length, tail, 0, ()⟩ (r.replay fs) := by
  obtain ⟨k, hk⟩ := Nat.exists_eq_add_of_le (length_le_encodeAll fs)
  refine ⟨k + (tail.length - 1), ?_⟩
  have hloop := recoverLoop_frames junk ((encodeAll fs).length + tail.length) hfits tail
    (k + (tail.length - 1) + 2) 0 hown (by omega)
  rw [Nat.zero_add] at hloop
  have hrounds : (encodeAll fs).length + tail.length + 1 =
      fs.length + (k + (tail.length - 1) + 2) := by omega
  rw [recoverFile, List.length_append, ← hloop, hrounds]

theorem recoverLoop_error {junk : Nat → Nat → UInt8} {size rounds : Nat} {st : Input Unit}
    {r : Recovered} {e : Fault} (hlt : st.pos < size) (h : readFrame junk st = .error e) :
    recoverLoop junk size (rounds + 1) st r = (r, some e) := by
  rw [recoverLoop, if_pos hlt, h]

theorem recoverLoop_last {junk : Nat → Nat → UInt8} {size rounds : Nat} {st st' : Input Unit}
    {r : Recovered} {f : Frame} (hlt : st.pos < size) (h : readFrame junk st = .ok (f.asRead, st'))
    (hown : Owned r.state.self [f]) (hend : ¬ st'.pos < size) :
    recoverLoop junk size (rounds + 2) st r = (r.apply f, none) := by
  rw [recoverLoop, if_pos hlt, h]
  simp only [Recovered.take_asRead hown]
  rw [recoverLoop, if_neg hend]

/-- On a torn frame `recover` reports an error, unless its checksum is completed. -/
theorem recoverFile_torn_iff (junk : Nat → Nat → UInt8) {fs : List Frame} (hfits : ∀ f ∈ fs, f.Fits)
    {r : Recovered} {f : Frame} (hown : Owned r.state.self (fs ++ [f])) (hf : f.Fits) {k : Nat}
    (hk0 : 0 < k) (hk : k < f.encode.length) :
    (∃ e, (recoverFile junk (encodeAll fs ++ f.encode.take k) r).2 = some e ∧
      e.isSystemError = true) ↔ ¬ ∃ j, k = f.blob.length + j ∧ Mends f.crc j (junk 0) := by
  have htail : (f.encode.take k).length = k := by
    rw [List.length_take]
    omega
  have hown' : Owned r.state.self fs := fun s hs => hown s (List.mem_append_left _ hs)
  obtain ⟨rounds, hloop⟩ := recoverFile_torn junk hfits hown' (htail ▸ hk0)
  rw [hloop, htail]
  have hlt : (encodeAll fs).length < (encodeAll fs).length + k := by omega
  have hlen : f.encode.length = f.blob.length + 4 := by
    rw [f.encode_eq, List.length_append, f.length_crc]
  by_cases hblob : k < f.blob.length
  · have htake : f.encode.take k = f.blob.take k := by
      rw [f.encode_eq, List.take_append_of_le_length hblob.le]
    obtain ⟨e, he, hsys⟩ := readFrame_cut_blob hf hblob junk (encodeAll fs).length 0
    rw [htake, recoverLoop_error hlt he]
    refine ⟨?_, fun _ => ⟨e, rfl, hsys⟩⟩
    rintro - ⟨j, hj, -⟩
    omega
  · obtain ⟨j, rfl⟩ := Nat.exists_eq_add_of_le (Nat.le_of_not_lt hblob)
    have hj : j < 4 := by omega
    have htake : f.encode.take (f.blob.length + j) = f.blob ++ f.crc.take j := by
      rw [f.encode_eq, List.take_length_add_append]
    have hmend : (∃ i, f.blob.length + j = f.blob.length + i ∧ Mends f.crc i (junk 0)) ↔
        Mends f.crc j (junk 0) := by simp
    rw [htake, hmend]
    rcases readFrame_cut_crc hf hj junk (encodeAll fs).length 0 with ⟨hm, hok⟩ | ⟨hm, herr⟩
    · have hlast : Owned (r.replay fs).state.self [f] := by
        rw [r.self_replay fs]
        exact fun s hs => hown s (List.mem_append_right _ hs)
      rw [recoverLoop_last hlt hok hlast (by simp only; omega)]
      simpa using hm
    · rw [recoverLoop_error hlt herr]
      exact ⟨fun _ => hm, fun _ => ⟨_, rfl, rfl⟩⟩

/-- A prefix of a log file is recovered as it should be exactly if it does not end inside a
checksum that the local completes. -/
theorem recoversPrefix_iff (self : UInt64) (junk : Nat → Nat → UInt8) {fs : List Frame}
    (hfits : ∀ f ∈ fs, f.Fits) (hown : Owned self fs) (n : Nat) :
    RecoversPrefix self junk fs n ↔ ¬ MendsPrefix junk fs n := by
  have hfits' : ∀ f ∈ completeFrames fs n, f.Fits := fun f hf => hfits f (mem_completeFrames hf)
  unfold RecoversPrefix MendsPrefix
  rcases htorn : tornFrame fs n with _ | ⟨f, k⟩
  · have hown' : Owned (Recovered.initial self).state.self (completeFrames fs n) :=
      fun s hs => hown s (mem_completeFrames hs)
    rw [take_of_tornFrame_none htorn, recoverFile_frames junk hfits' hown']
    simp only [Recovered.log_replay, Recovered.state_replay]
    simp [Recovered.initial, ReplicantState.clear]
  · obtain ⟨hf, hk0, hk, htake⟩ := take_of_tornFrame_some htorn
    have hown' : Owned (Recovered.initial self).state.self (completeFrames fs n ++ [f]) := by
      intro s hs
      rcases List.mem_append.mp hs with hs | hs
      · exact hown s (mem_completeFrames hs)
      · exact hown s (List.mem_singleton.mp hs ▸ hf)
    rw [htake]
    have hiff := recoverFile_torn_iff junk hfits' hown' (hfits f hf) hk0 hk
    simpa using hiff

/-- A file with the hard state of term 2 and a vote for replicant 3. -/
def voteFile : List Frame := [.replicantState ⟨0, false, 1, 2, 3⟩]

theorem voteFile_fits : ∀ f ∈ voteFile, f.Fits := by decide +kernel

theorem voteFile_owned : Owned 1 voteFile := by
  intro s hs
  rw [Frame.replicantState.inj (List.mem_singleton.mp hs)]

/-- The file without the last two bytes of its checksum, read with a local that holds zeros. -/
theorem voteFile_torn_noticed : RecoversPrefix 1 (fun _ _ => 0) voteFile 12 := by
  rw [recoversPrefix_iff 1 _ voteFile_fits voteFile_owned 12]
  rintro ⟨f, j, htorn, hm⟩
  have h12 : tornFrame voteFile 12 = some (.replicantState ⟨0, false, 1, 2, 3⟩, 10 + 2) := by
    decide +kernel
  rw [h12] at htorn
  obtain ⟨rfl, hj⟩ := Prod.mk.inj (Option.some.inj htorn)
  have hj2 : j = 2 := by
    have hblob : (Frame.replicantState ⟨0, false, 1, 2, 3⟩).blob.length = 10 := by decide +kernel
    omega
  have hcrc : (Frame.replicantState ⟨0, false, 1, 2, 3⟩).crc = [0x6e, 0x9c, 0x64, 0xab] := by
    decide +kernel
  rw [hj2, hcrc] at hm
  have hlast := hm 3 (by decide) (by decide)
  cases hlast

/-- If the local holds the two bytes, the torn frame is taken for a vote. -/
theorem voteFile_torn_accepted :
    tornFrame voteFile 12 ≠ none ∧
    recoverFile (fun _ i => if i = 2 then 0x64 else 0xab) ((encodeAll voteFile).take 12)
      (.initial 1) = (⟨⟨-1, true, 1, 2, 3⟩, []⟩, none) ∧
    ¬ RecoversPrefix 1 (fun _ i => if i = 2 then 0x64 else 0xab) voteFile 12 := by
  have htorn : tornFrame voteFile 12 = some (.replicantState ⟨0, false, 1, 2, 3⟩, 12) := by
    decide +kernel
  have hok : recoverFile (fun _ i => if i = 2 then 0x64 else 0xab) ((encodeAll voteFile).take 12)
      (.initial 1) = (⟨⟨-1, true, 1, 2, 3⟩, []⟩, none) := by
    decide +kernel
  refine ⟨by rw [htorn]; simp, hok, ?_⟩
  unfold RecoversPrefix
  rw [htorn, hok]
  simp

end Nodeoze.Raft
