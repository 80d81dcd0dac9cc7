import Nodeoze.Raft.Log
import Mathlib.Data.List.Chain

/-!
# What the log file holds

The abstract log file is a list of frames, each at its place.  `Holds` relates it to the log in
memory, `Inv` a log object to the disk and its stream.  Every operation of the log has one
specification here: what it makes of the abstract file, and that the concrete file follows.
-/

namespace Nodeoze.Raft

open Reader Bstream Obfilebuf Posix

/-! ### Writing frames -/

section Write

variable {os : Obfilebuf} {i : Nat} {app : Bool} {c : List UInt8}

theorem putAll_appends {A : Failure → Prop} {P : Obfilebuf → List UInt8 → Prop}
    (h : Obstreambuf.Appends A True P) (ts : List Chunk) :
    ∀ {os c}, P os c → Ends A (putAll ts os) fun os' => P os' (c ++ bytes ts) := by
  induction ts with
  | nil =>
    intro os c hos
    rw [bytes_nil, List.append_nil]
    exact .ok hos
  | cons t ts ih =>
    intro os c hos
    have hchunk : Ends A (putChunk os t) fun os' => P os' (c ++ t.bytes) := by
      cases t with
      | byte b => exact h.put (h.prepare hos) b
      | num bs => exact h.putn (h.prepare hos) fun _ => trivial
      | raw bs => exact h.putn (h.prepare hos) fun _ => trivial
    refine hchunk.bind ?_
    intro os₁ hos₁
    rw [bytes_cons, ← List.append_assoc]
    exact ih hos₁

theorem putAll_wrote (h : AtEnd os i app c) (f : Frame) :
    Ends TooBig (putAll f.filed os) fun os' => Wrote os os' i app (c ++ f.encode) :=
  putAll_appends (appends_wrote os i app) f.filed h.wrote

theorem writeFrame_wrote (h : AtEnd os i app c) (f : Frame) :
    Ends TooBig (writeFrame os f false) fun os' => Wrote os os' i app (c ++ f.encode) :=
  (putAll_wrote h f).bind fun _ hw => .ok hw

theorem writeFrame_flush (h : AtEnd os i app c) (f : Frame) :
    Ends TooBig (writeFrame os f true) fun os' =>
      Wrote os os' i app (c ++ f.encode) ∧ Rests os' i app (c ++ f.encode) := by
  refine (putAll_wrote h f).bind ?_
  intro os₁ hw₁
  refine hw₁.atEnd.flush.imp ?_
  rintro os₂ ⟨hw₂, hnext, hclean⟩
  exact ⟨hw₁.trans hw₂, hw₂.atEnd.rests hnext hclean⟩

/-- Nothing is ever written to a file that is closed. -/
theorem writeFrame_shut (h : Shut os) (f : Frame) :
    Ends IsErrno (writeFrame os f true) fun _ => False := by
  have hstart : Shut os ∧ (([] : List UInt8) ≠ [] → os.dirty = true) :=
    ⟨h, fun hne => absurd rfl hne⟩
  have hput := putAll_appends appends_shut f.filed hstart
  refine hput.bind ?_
  rintro os₁ ⟨hshut, hdirty⟩
  have hne : [] ++ bytes f.filed ≠ [] := by
    have hpos := encode_pos f
    intro hnil
    rw [Frame.encode, ← List.nil_append (bytes f.filed), hnil] at hpos
    exact absurd hpos (lt_irrefl 0)
  show Ends IsErrno os₁.flush _
  rw [hshut.flush (hdirty hne)]
  exact .error ⟨_, rfl⟩

theorem position_eq (h : AtEnd os i app c) : position os = .ofNat c.length := by
  rw [h.length]
  rfl

end Write

/-! ### Sizes -/

/-- The payload leaves room for the rest of the frame in a 32-bit size. -/
def StateMachineUpdate.Small (e : StateMachineUpdate) : Prop := e.payload.length + 37 < 2 ^ 32

instance (e : StateMachineUpdate) : Decidable e.Small := by
  unfold StateMachineUpdate.Small; exact inferInstance

theorem length_putUnsigned (n : Nat) : (bytes (putUnsigned .big n)).length ≤ 9 := by
  unfold putUnsigned
  split_ifs <;> simp [putNum, Chunk.bytes]

theorem length_putSigned (i : Int) : (bytes (putInt .big true i)).length ≤ 9 := by
  have hnat := length_putUnsigned i.toNat
  simp only [putInt, putSigned, if_true]
  split_ifs <;> simp_all [putNum, Chunk.bytes]

theorem length_writeBlobHeader (n : Nat) : (bytes (writeBlobHeader .big n)).length ≤ 5 := by
  simp only [writeBlobHeader]
  split_ifs <;> simp [putNum, Chunk.bytes]

theorem fits_replicantState (s : ReplicantState) : (Frame.replicantState s).Fits := by
  have h1 := length_putSigned s.pos.toInt
  have h2 := length_putUnsigned s.self.toNat
  have h3 := length_putUnsigned s.term.toNat
  have h4 := length_putUnsigned s.vote.toNat
  rw [Frame.Fits, Frame.body, Frame.chunks_replicantState]
  simp only [bytes_append, List.length_append]
  simp [Chunk.bytes]
  omega

theorem fits_stateMachineUpdate {e : StateMachineUpdate} (h : e.Small) :
    (Frame.stateMachineUpdate e).Fits := by
  have h1 := length_putSigned e.pos.toInt
  have h2 := length_putUnsigned e.term.toNat
  have h3 := length_putUnsigned e.index.toNat
  have h4 := length_writeBlobHeader e.payload.length
  unfold StateMachineUpdate.Small at h
  rw [Frame.Fits, Frame.body, Frame.chunks_stateMachineUpdate]
  simp only [writeBlob, bytes_append, List.length_append]
  simp [Chunk.bytes]
  omega

/-! ### Frames in their places -/

def Frame.pos : Frame → Int64
  | .replicantState s => s.pos
  | .stateMachineUpdate e => e.pos

/-- Every frame knows its place in the file; the first one is at `n`. -/
def Placed : Nat → List Frame → Prop
  | _, [] => True
  | n, f :: fs => f.pos = .ofNat n ∧ Placed (n + f.encode.length) fs

theorem placed_append (n : Nat) (fs gs : List Frame) :
    Placed n (fs ++ gs) ↔ Placed n fs ∧ Placed (n + (encodeAll fs).length) gs := by
  induction fs generalizing n with
  | nil => simp [Placed, encodeAll]
  | cons f fs ih =>
    simp only [List.cons_append, Placed, ih, encodeAll_cons, List.length_append, and_assoc,
      Nat.add_assoc]

/-- Where the next frame goes. -/
def endPos (fs : List Frame) : Int64 := .ofNat (encodeAll fs).length

/-- The index of an update is one more than that of the update before it. -/
def Follows (a b : StateMachineUpdate) : Prop := b.index.toNat = a.index.toNat + 1

instance (a b : StateMachineUpdate) : Decidable (Follows a b) := by
  unfold Follows; exact inferInstance

/-- The file with the frames `fs` is one of replicant `me`, and the updates `es` are among those in
it.  If `q` holds they are all of them and have consecutive indices; a log that got other updates
can lose some from memory only, when pruning finds no update with the index it looks for. -/
structure Holds (q : Prop) (me : UInt64) (es : List StateMachineUpdate) (fs : List Frame) :
    Prop where
  placed : Placed 0 fs
  owned : Owned me fs
  small : ∀ e ∈ entries fs, e.Small
  sub : es.Sublist (entries fs)
  exact : q → es = entries fs ∧ es.IsChain Follows

namespace Holds

variable {q : Prop} {me : UInt64} {es : List StateMachineUpdate} {fs : List Frame}

theorem nil (q : Prop) (me : UInt64) : Holds q me [] [] where
  placed := trivial
  owned := by simp [Owned]
  small := by simp [entries]
  sub := List.nil_sublist _
  exact := fun _ => ⟨rfl, List.IsChain.nil⟩

theorem fits (h : Holds q me es fs) : ∀ f ∈ fs, f.Fits := by
  intro f hf
  cases f with
  | replicantState s => exact fits_replicantState s
  | stateMachineUpdate e =>
    apply fits_stateMachineUpdate
    apply h.small
    exact List.mem_filterMap.mpr ⟨_, hf, rfl⟩

theorem add_state (h : Holds q me es fs) {s : ReplicantState} (hself : s.self = me)
    (hpos : s.pos = endPos fs) : Holds q me es (fs ++ [.replicantState s]) := by
  have hsame : entries (fs ++ [.replicantState s]) = entries fs := by
    rw [entries_append]
    exact List.append_nil _
  exact {
    placed := by
      rw [placed_append, Nat.zero_add]
      exact ⟨h.placed, hpos, trivial⟩
    owned := by
      intro t ht
      rcases List.mem_append.mp ht with ht | ht
      · exact h.owned t ht
      · rw [Frame.replicantState.inj (List.mem_singleton.mp ht), hself]
    small := by
      rw [hsame]
      exact h.small
    sub := by
      rw [hsame]
      exact h.sub
    exact := by
      rw [hsame]
      exact h.exact }

theorem add_entry (h : Holds q me es fs) {e : StateMachineUpdate} (hpos : e.pos = endPos fs)
    (hnext : q → ∀ a, es.getLast? = some a → Follows a e) (hsmall : e.Small) :
    Holds q me (es ++ [e]) (fs ++ [.stateMachineUpdate e]) := by
  have hmore : entries (fs ++ [.stateMachineUpdate e]) = entries fs ++ [e] := by
    rw [entries_append]
    rfl
  exact {
    placed := by
      rw [placed_append, Nat.zero_add]
      exact ⟨h.placed, hpos, trivial⟩
    owned := by
      intro t ht
      rcases List.mem_append.mp ht with ht | ht
      · exact h.owned t ht
      · cases List.mem_singleton.mp ht
    small := by
      rw [hmore]
      intro a ha
      rcases List.mem_append.mp ha with ha | ha
      · exact h.small a ha
      · rw [List.mem_singleton.mp ha]
        exact hsmall
    sub := by
      rw [hmore]
      exact h.sub.append_right [e]
    exact := by
      intro hq
      obtain ⟨hes, hchain⟩ := h.exact hq
      refine ⟨by rw [hmore, hes], ?_⟩
      rw [List.isChain_append]
      refine ⟨hchain, List.isChain_singleton e, ?_⟩
      intro a ha b hb
      rw [← Option.some.inj hb]
      exact hnext hq a ha }

/-- Some updates are gone from memory. -/
theorem forget (h : Holds q me es fs) {ks : List StateMachineUpdate} (hsub : ks.Sublist es)
    (hq : ¬ q) : Holds q me ks fs :=
  ⟨h.placed, h.owned, h.small, hsub.trans h.sub, fun h' => absurd h' hq⟩

end Holds

/-! ### Cutting the file at its back -/

/-- The frames in front of the one at `pos`. -/
def cutAt (pos : Int64) (fs : List Frame) : List Frame := fs.takeWhile fun f => f.pos ≠ pos

theorem pos_of_placed {fs : List Frame} {f : Frame} :
    ∀ {n : Nat}, Placed n fs → f ∈ fs → ∃ k, k < (encodeAll fs).length ∧ f.pos = .ofNat (n + k) := by
  induction fs with
  | nil => exact fun _ hf => nomatch hf
  | cons g fs ih =>
    intro n hn hf
    have hpos := encode_pos g
    rw [encodeAll_cons, List.length_append]
    rcases List.mem_cons.mp hf with rfl | hf
    · exact ⟨0, by omega, hn.1⟩
    · obtain ⟨k, hk, hfk⟩ := ih hn.2 hf
      exact ⟨g.encode.length + k, by omega, by rw [hfk, Nat.add_assoc]⟩

/-- Frames in their places are at different ones. -/
theorem cutAt_split {gs hs : List Frame} {f : Frame} (h : Placed 0 (gs ++ f :: hs))
    (hbound : (encodeAll (gs ++ f :: hs)).length ≤ maxOffset) : cutAt f.pos (gs ++ f :: hs) = gs := by
  rw [placed_append, Nat.zero_add] at h
  rw [encodeAll_append, List.length_append] at hbound
  have hne : ∀ g ∈ gs, g.pos ≠ f.pos := by
    intro g hg heq
    obtain ⟨k, hk, hgk⟩ := pos_of_placed h.1 hg
    rw [h.2.1, hgk, Nat.zero_add] at heq
    have hint := congrArg Int64.toInt heq
    unfold maxOffset at hbound
    rw [Int64.toInt_ofNat_of_lt (by omega), Int64.toInt_ofNat_of_lt (by omega)] at hint
    omega
  unfold cutAt
  rw [List.takeWhile_append_of_pos (by simpa using hne)]
  simp

/-- Where an update in memory is in the file. -/
theorem split_of_sublist {fs : List Frame} {ks rs : List StateMachineUpdate} {e : StateMachineUpdate}
    (h : (ks ++ e :: rs).Sublist (entries fs)) :
    ∃ gs hs, fs = gs ++ .stateMachineUpdate e :: hs ∧ ks.Sublist (entries gs) ∧
      rs.Sublist (entries hs) := by
  induction fs generalizing ks with
  | nil =>
    have hnil := List.sublist_nil.mp h
    simp at hnil
  | cons f fs ih =>
    cases f with
    | replicantState s =>
      obtain ⟨gs, hs, rfl, hks, hrs⟩ := ih h
      exact ⟨.replicantState s :: gs, hs, rfl, hks, hrs⟩
    | stateMachineUpdate a =>
      rw [entries_stateMachineUpdate] at h
      rcases List.sublist_cons_iff.mp h with h | ⟨r, heq, h⟩
      · obtain ⟨gs, hs, rfl, hks, hrs⟩ := ih h
        exact ⟨.stateMachineUpdate a :: gs, hs, rfl, hks.cons a, hrs⟩
      · obtain _ | ⟨k, ks⟩ := ks
        · obtain ⟨rfl, rfl⟩ := List.cons.inj heq
          exact ⟨[], fs, rfl, List.nil_sublist _, h⟩
        · obtain ⟨rfl, rfl⟩ := List.cons.inj heq
          obtain ⟨gs, hs, rfl, hks, hrs⟩ := ih h
          exact ⟨.stateMachineUpdate k :: gs, hs, rfl, hks.cons_cons k, hrs⟩

theorem Holds.cut {q : Prop} {me : UInt64} {ks rs : List StateMachineUpdate}
    {e : StateMachineUpdate} {fs : List Frame} (h : Holds q me (ks ++ e :: rs) fs)
    (hbound : (encodeAll fs).length ≤ maxOffset) :
    Holds q me ks (cutAt e.pos fs) ∧ e.pos = endPos (cutAt e.pos fs) ∧
      ∃ hs, fs = cutAt e.pos fs ++ hs := by
  obtain ⟨gs, hs, hfs, hks, hrs⟩ := split_of_sublist h.sub
  have hplaced := h.placed
  rw [hfs] at hplaced hbound
  have hcut : cutAt e.pos fs = gs := by
    rw [hfs]
    exact cutAt_split hplaced hbound
  rw [placed_append, Nat.zero_add] at hplaced
  rw [hcut]
  refine ⟨?_, hplaced.2.1, _, hfs⟩
  have hmem : ∀ f ∈ gs, f ∈ fs := by
    intro f hf
    rw [hfs]
    exact List.mem_append_left _ hf
  exact {
    placed := hplaced.1
    owned := fun s hs => h.owned s (hmem _ hs)
    small := by
      intro a ha
      refine h.small a ?_
      rw [hfs, entries_append]
      exact List.mem_append_left _ ha
    sub := hks
    exact := by
      intro hq
      obtain ⟨hes, hchain⟩ := h.exact hq
      refine ⟨?_, hchain.left_of_append⟩
      -- neither side of the update has more in the file than in memory
      rw [hfs, entries_append, entries_stateMachineUpdate] at hes
      have hlen := congrArg List.length hes
      simp only [List.length_append, List.length_cons] at hlen
      have h1 := hks.length_le
      have h2 := hrs.length_le
      exact hks.eq_of_length (by omega) }

/-! ### Writing the file anew -/

/-- The frames of the updates, from place `n` on. -/
def relocate : Nat → List StateMachineUpdate → List Frame
  | _, [] => []
  | n, e :: es =>
    let f := Frame.stateMachineUpdate { e with pos := .ofNat n }
    f :: relocate (n + f.encode.length) es

theorem placed_relocate (n : Nat) (es : List StateMachineUpdate) : Placed n (relocate n es) := by
  induction es generalizing n with
  | nil => trivial
  | cons e es ih => exact ⟨rfl, ih _⟩

/-- What an update is apart from its place in the file. -/
def StateMachineUpdate.value (e : StateMachineUpdate) : UInt64 × UInt64 × List UInt8 :=
  (e.term, e.index, e.payload)

theorem value_relocate (n : Nat) (es : List StateMachineUpdate) :
    (entries (relocate n es)).map StateMachineUpdate.value = es.map StateMachineUpdate.value := by
  induction es generalizing n with
  | nil => rfl
  | cons e es ih => exact congrArg (e.value :: ·) (ih _)

theorem consecutive_of_value {es es' : List StateMachineUpdate}
    (h : es'.map StateMachineUpdate.value = es.map StateMachineUpdate.value)
    (hes : es.IsChain Follows) : es'.IsChain Follows := by
  have hindex : ∀ l : List StateMachineUpdate, l.IsChain Follows ↔
      (l.map StateMachineUpdate.value).IsChain fun a b => b.2.1.toNat = a.2.1.toNat + 1 := by
    intro l
    rw [List.isChain_map]
    rfl
  rw [hindex, h, ← hindex]
  exact hes

theorem small_of_value {es es' : List StateMachineUpdate}
    (h : es'.map StateMachineUpdate.value = es.map StateMachineUpdate.value)
    (hes : ∀ e ∈ es, e.Small) : ∀ e ∈ es', e.Small := by
  intro e he
  have hmem : e.value ∈ es.map StateMachineUpdate.value := by
    rw [← h]
    exact List.mem_map_of_mem he
  obtain ⟨a, ha, hae⟩ := List.mem_map.mp hmem
  have hpayload : a.payload = e.payload := congrArg (fun v => v.2.2) hae
  have hsmall := hes a ha
  unfold StateMachineUpdate.Small at hsmall ⊢
  rwa [← hpayload]

theorem owned_relocate (me : UInt64) (n : Nat) (es : List StateMachineUpdate) :
    Owned me (relocate n es) := by
  induction es generalizing n with
  | nil => exact fun _ hs => nomatch hs
  | cons e es ih =>
    intro s hs
    rcases List.mem_cons.mp hs with hs | hs
    · cases hs
    · exact ih _ s hs

theorem holds_relocate {q : Prop} {me : UInt64} {es : List StateMachineUpdate} {s : ReplicantState}
    (hes : q → es.IsChain Follows) (hsmall : ∀ e ∈ es, e.Small) (hself : s.self = me)
    (hpos : s.pos = endPos (relocate 0 es)) :
    Holds q me (entries (relocate 0 es)) (relocate 0 es ++ [.replicantState s]) := by
  have hvalue := value_relocate 0 es
  have hfile : Holds q me (entries (relocate 0 es)) (relocate 0 es) := {
    placed := placed_relocate 0 es
    owned := owned_relocate me 0 es
    small := small_of_value hvalue hsmall
    sub := List.Sublist.refl _
    exact := fun hq => ⟨rfl, consecutive_of_value hvalue (hes hq)⟩ }
  exact hfile.add_state hself hpos

/-! ### Finding an index in the log -/

/-- Between neighbours there is no third index. -/
theorem Follows.eq_left {a b : StateMachineUpdate} (h : Follows a b) {index : UInt64}
    (ha : ¬ index < a.index) (hb : index < b.index) : a.index = index := by
  unfold Follows at h
  rw [UInt64.lt_iff_toNat_lt] at ha hb
  exact UInt64.toNat_inj.mp (by omega)

theorem Follows.eq_right {a b : StateMachineUpdate} (h : Follows a b) {index : UInt64}
    (ha : a.index < index) (hb : ¬ b.index < index) : b.index = index := by
  unfold Follows at h
  rw [UInt64.lt_iff_toNat_lt] at ha hb
  exact UInt64.toNat_inj.mp (by omega)

end Nodeoze.Raft
