import Nodeoze.Lib.Fallible
import Nodeoze.Lib.TwoRuns
import Nodeoze.Bstream.ObmembufIsolation
import Nodeoze.Bstream.Obstream

/-!
# Output streams in memory

An `ombstream` is an `obmembuf` with the pointer table of its `obstream` part.  `write` is
`operator<<` call by call: what it has put into the buffer and saved in the table stays there when
it throws.  `put`, the chunks of a value that is written to its end, is what it comes to.
-/

namespace Nodeoze.Bstream

open Reader TwoRuns

/-- One call on the stream buffer. -/
def Obmembuf.putChunk (m : Obmembuf) : Chunk → Except Failure Obmembuf
  | .byte b => Obstreambuf.put m b
  | .num bs => Obstreambuf.putn m bs
  | .raw bs => Obstreambuf.putn m bs

structure Ombstream where
  membuf : Obmembuf
  deduper : SavedTags

namespace Ombstream

abbrev Writing (α : Type) : Type := Prog Failure Fault Ombstream α

def emit (ts : List Chunk) : Writing Unit := do
  let s ← get
  let m ← (ts.foldlM Obmembuf.putChunk s.membuf : Except Failure Obmembuf)
  set { s with membuf := m }

/-- `obstream::ptr_deduper::save_ptr` -/
def savePtr (ptr : Nat × Nat) (tag : Int) : Writing Unit :=
  modify fun s => { s with deduper := s.deduper.save ptr tag }

variable (C : Context)

mutual

def write : Val → Writing Unit
  | .bool b => emit (putBool b)
  | .int sg _ i => emit (putInt C.order sg i)
  | .float word => emit (putFloat C.order word)
  | .double word => emit (putDouble C.order word)
  | .string bs =>
    match putString C.order bs with
    | .ok ts => emit ts
    | .error e => throw e
  | .buffer bs => emit (writeBlob C.order bs)
  | .seq vs => do
    emit (writeArrayHeader C.order vs.length)
    writeAll vs
  | .obj c parts => do
    emit (writeArrayHeader C.order (C.itemCount c))
    writeAll parts
  | .null => emit C.writeNullPtr
  | .own held v => do
    emit (C.writeTypeTag (C.typeTag (v.dynamicTy held)))
    write v
  | .shared held a v => do
    let ptr := (a, C.subobject held v)
    let tag := C.typeTag (v.dynamicTy held)
    if C.dedupSharedPtrs then
      let s ← get
      match s.deduper.find ptr with
      | some (savedTag, serial) => emit (C.writeTypeTag savedTag ++ putUnsigned C.order serial)
      | none =>
        emit (C.writeTypeTag tag)
        write v
        savePtr ptr tag
    else
      emit (C.writeTypeTag tag)
      write v

def writeAll : List Val → Writing Unit
  | [] => pure ()
  | v :: vs => do
    write v
    writeAll vs

end

/-- `ombstream::clear` -/
def clear (s : Ombstream) : Except Failure Ombstream := do
  let m ← Obmembuf.clear s.membuf
  pure { s with membuf := m }

/-- `ombstream::get_buffer`, and what the buffer holds. -/
def getBuffer (s : Ombstream) : Except Failure (List UInt8 × Ombstream) := do
  let (slot, m) ← Obmembuf.getBuffer s.membuf false
  let bytes ← defined (m.dev.heap.content slot)
  pure (bytes, { s with membuf := m })

/-- What a client does with the stream: write a value, and catch what that throws, or call the
stream buffer. -/
inductive Call
  | write (v : Val)
  | membuf (op : Op)

def call (s : Ombstream) : Call → Except Failure Ombstream
  | .write v => do
    let (_, s) ← exec (write C v) s
    pure s
  | .membuf op => do
    let (_, m) ← Obmembuf.step s.membuf op
    pure { s with membuf := m }

/-- How the writes of the values end, one by one, and what the buffer holds then. -/
def produced (s : Ombstream) : List Val → Except Failure (List (Except Fault Unit) × List UInt8)
  | [] => do
    let (bytes, _) ← getBuffer s
    pure ([], bytes)
  | v :: vs => do
    let (r, s) ← exec (write C v) s
    let (rs, bytes) ← produced s vs
    pure (r :: rs, bytes)

end Ombstream

/-! ### What the buffer holds -/

namespace Obmembuf

open RefHeap Splice Buffer Obstreambuf

/-- The buffer contains `bs`, and the next write goes behind it. -/
def Contains (m : Obmembuf) (bs : List UInt8) : Prop :=
  ∃ h B c, Shows m ⟨bs, bs.length⟩ h B c

/-- The buffer can be written to. -/
def Sound (m : Obmembuf) : Prop :=
  ∃ h B c, Inv m h B c ∧ AtStart h B ∧ (m.writable = true → Writable B)

/-- An `obmembuf` as its constructors leave it, the one that takes a buffer given one whose block is
not shared. -/
inductive Built : Obmembuf → Prop
  | capacity {junk : Nat → Nat → UInt8} {H : Heap} {size : Nat} {pol : Policy} {m : Obmembuf} :
      H.WF guarded → ofCapacity junk H size pol = .ok m → Built m
  | buffer {junk : Nat → Nat → UInt8} {H : Heap} {i : Nat} {h : Handle} {B : Block UInt8 Policy}
      {c : List UInt8} {m : Obmembuf} : Owned H i h B c → AtStart h B → Writable B →
      ofBuffer junk H i = .ok m → Built m

variable {m m' : Obmembuf} {bs : List UInt8}

theorem Built.contains (hm : Built m) : Contains m [] := by
  cases hm with
  | @capacity junk H size pol _ hH hm =>
    obtain ⟨s, h, B, c, hs, hshows⟩ := shows_ofCapacity junk hH size pol
    obtain rfl : s = m := Except.ok.inj (hs.symm.trans hm)
    exact ⟨h, B, c, hshows⟩
  | @buffer junk H i h B c _ o hstart hfree hm =>
    have hptrs := setPtrs_eq (s := Obstreambuf.init ⟨junk, H, i, none⟩) o 0
    obtain rfl := Except.ok.inj (hptrs.symm.trans hm)
    exact ⟨h, B, c, ⟨o, rfl, rfl, rfl, Nat.zero_le _, Nat.zero_le _, le_rfl⟩, hstart, fun _ => hfree,
      fun _ => rfl, rfl, rfl⟩

theorem Contains.sound (hm : Contains m bs) : Sound m := by
  obtain ⟨h, B, c, r⟩ := hm
  exact ⟨h, B, c, r.inv, r.start, r.free⟩

section

variable {h h' : Handle} {B B' : Block UInt8 Policy} {c c' src : List UInt8}

/-- A write at the end loses nothing. -/
theorem Shows.append (r : Shows m ⟨bs, bs.length⟩ h B c) (hw : Wrote m h B c src m' h' B' c') :
    Contains m' (bs ++ src) := by
  have hkeep : ¬ Loses m (.putn src) := by
    rintro ⟨-, -, -, hlt⟩
    have hpos : bs.length = m.pnext := r.pos
    have hlen : bs.length = extent m := r.length
    have hle : m.highWatermark ≤ extent m := by
      unfold extent
      split_ifs <;> omega
    omega
  have hshows := r.wrote rfl hkeep hw
  have happend : Writer.write 0 ⟨bs, bs.length⟩ src = ⟨bs ++ src, (bs ++ src).length⟩ := by
    simp [Writer.write, pad, splice]
  rw [happend] at hshows
  exact ⟨h', B', c', hshows⟩

theorem Sound.of_wrote (hs : AtStart h B) (hw : Wrote m h B c src m' h' B' c') : Sound m' :=
  ⟨h', B', c', hw.inv, hw.step.start hs, fun _ => hw.free⟩

end

theorem Contains.putChunk (hm : Contains m bs) (ch : Chunk) :
    ∃ m', putChunk m ch = .ok m' ∧ Contains m' (bs ++ ch.bytes) := by
  obtain ⟨h, B, c, r⟩ := hm
  have hblock : ∀ src, ∃ m', Obstreambuf.putn m src = .ok m' ∧ Contains m' (bs ++ src) := by
    intro src
    obtain ⟨m', h', B', c', hcall, hw⟩ := putn_spec r.inv r.free src
    exact ⟨m', hcall, r.append hw⟩
  cases ch with
  | byte b =>
    obtain ⟨m', h', B', c', hcall, hw⟩ := put_spec r.inv r.free b
    exact ⟨m', hcall, r.append hw⟩
  | num src => exact hblock src
  | raw src => exact hblock src

theorem Sound.putChunk (hm : Sound m) (ch : Chunk) : ∃ m', putChunk m ch = .ok m' ∧ Sound m' := by
  obtain ⟨h, B, c, i, hs, hfree⟩ := hm
  have hblock : ∀ src, ∃ m', Obstreambuf.putn m src = .ok m' ∧ Sound m' := by
    intro src
    obtain ⟨m', h', B', c', hcall, hw⟩ := putn_spec i hfree src
    exact ⟨m', hcall, .of_wrote hs hw⟩
  cases ch with
  | byte b =>
    obtain ⟨m', h', B', c', hcall, hw⟩ := put_spec i hfree b
    exact ⟨m', hcall, .of_wrote hs hw⟩
  | num src => exact hblock src
  | raw src => exact hblock src

/-- Every call of the client leaves a buffer that can be written to. -/
theorem Sound.step (hm : Sound m) (op : Op) : ∃ o m', step m op = .ok (o, m') ∧ Sound m' := by
  obtain ⟨h, B, c, i, hs, hfree⟩ := hm
  have hstep : ∀ {m' h' B' c'}, Inv m' h' B' c' → Step m h B m' h' B' →
      (m'.writable = true → Writable B') → Sound m' :=
    fun i' st hfree' => ⟨_, _, _, i', st.start hs, hfree'⟩
  cases op with
  | put byte =>
    obtain ⟨m', h', B', c', hcall, hw⟩ := put_spec i hfree byte
    exact ⟨.done, m', by simp only [Obmembuf.step, hcall]; rfl, .of_wrote hs hw⟩
  | putn src =>
    obtain ⟨m', h', B', c', hcall, hw⟩ := putn_spec i hfree src
    exact ⟨.done, m', by simp only [Obmembuf.step, hcall]; rfl, .of_wrote hs hw⟩
  | filln byte n =>
    obtain ⟨m', h', B', c', hcall, hw⟩ := putn_spec i hfree (List.replicate n byte)
    refine ⟨.done, m', ?_, .of_wrote hs hw⟩
    simp only [Obmembuf.step, Obstreambuf.filln, hcall]
    rfl
  | seek where_ offset =>
    by_cases hneg : (flushed m).target where_ offset < 0
    · refine ⟨.invalidArgument, flushed m, ?_, h, B, c, i.flushed, hs, hfree⟩
      simp only [Obmembuf.step, seek_negative i hneg]
      rfl
    · obtain ⟨pos, hpos⟩ := Int.eq_ofNat_of_zero_le (Int.not_lt.mp hneg)
      obtain ⟨m', h', B', c', hcall, i', st, -, -, hwr, -, -, hkeep⟩ := seek_spec i hpos
      refine ⟨.position pos, m', by simp only [Obmembuf.step, hcall]; rfl, hstep i' st ?_⟩
      intro hf
      exact hkeep (hfree (hwr ▸ hf))
  | tell where_ =>
    obtain ⟨m', hcall, i', st, -, -, -, hwr, -⟩ := tell_spec i where_
    refine ⟨_, m', by simp only [Obmembuf.step, hcall]; rfl, hstep i' st ?_⟩
    intro hf
    exact hfree (hwr ▸ hf)
  | flush =>
    exact ⟨.done, flushed m, by simp only [Obmembuf.step, flush_eq i]; rfl, h, B, c, i.flushed, hs,
      hfree⟩
  | getBuffer forceCopy =>
    obtain ⟨m', B', hcall, i', -, -, hcontent, hstart, -, -, -, -, hkeep⟩ := getBuffer_spec i forceCopy
    refine ⟨.bytes (c.take (extent m)), m', ?_, h, B', c, i', hstart hs, ?_⟩
    · simp only [Obmembuf.step, hcall, ok_bind, hcontent, defined_some]
      rfl
    · intro hf
      obtain ⟨hwr, hB⟩ := hkeep hf
      exact hB (hfree hwr)
  | clear =>
    obtain ⟨m', hcall, i', st, -, -, -, hwr⟩ := clear_spec i
    refine ⟨.done, m', by simp only [Obmembuf.step, hcall]; rfl, hstep i' st ?_⟩
    intro hf
    exact hfree (hwr ▸ hf)
  | drop slot =>
    by_cases hslot : slot = m.dev.buf
    · exact ⟨.done, m, by simp only [Obmembuf.step, hslot, if_true]; rfl, h, B, c, i, hs, hfree⟩
    · obtain ⟨B', o', -, hmem, hg, ht, hone⟩ := i.owned.drop hslot
      refine ⟨.done, setHeap m (unshare m.dev.heap slot), ?_, h, B', c,
        ⟨o', i.base, i.pend, i.offset, i.next, i.mark, i.touched⟩, ?_, ?_⟩
      · simp only [Obmembuf.step, hslot, if_false]
        rfl
      · unfold AtStart Block.data at hs ⊢
        rwa [hmem, hg]
      · intro hf
        rcases hfree hf with hu | hp
        · exact Or.inl (hone hu)
        · exact Or.inr (ht.trans hp)

/-- Whatever was written before, a cleared buffer is empty. -/
theorem Sound.clear (hm : Sound m) : ∃ m', clear m = .ok m' ∧ Contains m' [] := by
  obtain ⟨h, B, c, i, hs, hfree⟩ := hm
  obtain ⟨m', hcall, i', -, hn, he, hd, hwr⟩ := clear_spec i
  refine ⟨m', hcall, h, B, c, i', hs, fun hf => hfree (hwr ▸ hf), fun _ => ?_, by rw [he]; rfl, hn.symm⟩
  rw [extent_of_clean (by simp [hd])]

theorem Contains.getBuffer (hm : Contains m bs) :
    ∃ slot m', getBuffer m false = .ok (slot, m') ∧ m'.dev.heap.content slot = some bs := by
  obtain ⟨h, B, c, r⟩ := hm
  obtain ⟨m', B', hcall, -, -, -, hcontent, -⟩ := getBuffer_spec r.inv false
  refine ⟨_, m', hcall, ?_⟩
  rw [hcontent, ← r.bytes]

end Obmembuf

/-! ### A value written to its end -/

namespace Ombstream

variable {C : Context} {s : Ombstream} {bs : List UInt8}

theorem exec_emit {ts : List Chunk} {m : Obmembuf}
    (h : ts.foldlM Obmembuf.putChunk s.membuf = .ok m) :
    exec (emit ts) s = .ok (.ok (), { s with membuf := m }) := by
  rw [emit, exec_get_bind]
  exact exec_bind_ok (exec_lift h s)

theorem emit_contains (hs : s.membuf.Contains bs) (ts : List Chunk) :
    ∃ m, exec (emit ts) s = .ok (.ok (), { s with membuf := m }) ∧ m.Contains (bs ++ bytes ts) := by
  have hfold : ∀ (ts : List Chunk) {m : Obmembuf} {bs : List UInt8}, m.Contains bs →
      ∃ m', ts.foldlM Obmembuf.putChunk m = .ok m' ∧ m'.Contains (bs ++ bytes ts) := by
    intro ts
    induction ts with
    | nil => exact fun {m bs} hm => ⟨m, rfl, by rwa [bytes_nil, List.append_nil]⟩
    | cons t ts ih =>
      intro m bs hm
      obtain ⟨m₁, hput, hm₁⟩ := hm.putChunk t
      obtain ⟨m₂, hputs, hm₂⟩ := ih hm₁
      refine ⟨m₂, ?_, by rwa [bytes_cons, ← List.append_assoc]⟩
      rw [List.foldlM_cons, hput]
      exact hputs
  obtain ⟨m, hm, hcontains⟩ := hfold ts hs
  exact ⟨m, exec_emit hm, hcontains⟩

/-- With deduplication the table decides what is written for a shared pointer. -/
theorem exec_write_shared (hd : C.dedupSharedPtrs = true) (t : Ty) (a : Nat) (v : Val)
    (s : Ombstream) : exec (write C (.shared t a v)) s =
      exec (match s.deduper.find (a, C.subobject t v) with
        | some (savedTag, serial) => emit (C.writeTypeTag savedTag ++ putUnsigned C.order serial)
        | none => do
          emit (C.writeTypeTag (C.typeTag (v.dynamicTy t)))
          write C v
          savePtr (a, C.subobject t v) (C.typeTag (v.dynamicTy t))) s := by
  simp only [write, if_pos hd]
  rfl

/-- `write` refines `put`: the chunks are in the buffer, and the table is that of `put`. -/
def Refines (C : Context) (v : Val) : Prop :=
  ∀ {w ts w'}, C.put v w = .ok (ts, w') → ∀ {m : Obmembuf} {bs}, m.Contains bs →
    ∃ m', exec (write C v) ⟨m, w⟩ = .ok (.ok (), ⟨m', w'⟩) ∧ m'.Contains (bs ++ bytes ts)

theorem writeAll_put {vs : List Val} (hvs : ∀ v ∈ vs, Refines C v) :
    ∀ {w ts w'}, C.putAll vs w = .ok (ts, w') → ∀ {m : Obmembuf} {bs}, m.Contains bs →
      ∃ m', exec (writeAll C vs) ⟨m, w⟩ = .ok (.ok (), ⟨m', w'⟩) ∧ m'.Contains (bs ++ bytes ts) := by
  induction vs with
  | nil =>
    intro w ts w' h m bs hm
    cases h
    exact ⟨m, rfl, by rwa [bytes_nil, List.append_nil]⟩
  | cons v vs ih =>
    intro w cs w' h m bs hm
    obtain ⟨hv, hvs⟩ := List.forall_mem_cons.mp hvs
    obtain ⟨⟨ts, w₁⟩, h1, hrest⟩ := Fallible.bind_eq_ok.mp (show (C.put v w >>= _) = _ from h)
    obtain ⟨⟨us, w₂⟩, h2, hcs⟩ := Fallible.map_eq_ok.mp hrest
    cases hcs
    obtain ⟨m₁, hrun, hm₁⟩ := hv h1 hm
    obtain ⟨m₂, hruns, hm₂⟩ := ih hvs h2 hm₁
    rw [bytes_append, ← List.append_assoc]
    exact ⟨m₂, (exec_bind_ok hrun).trans hruns, hm₂⟩

theorem refines (v : Val) : Refines C v := by
  have hemit : ∀ (ts : List Chunk) {w m bs}, Obmembuf.Contains m bs →
      ∃ m', exec (emit ts) ⟨m, w⟩ = .ok (.ok (), ⟨m', w⟩) ∧ m'.Contains (bs ++ bytes ts) :=
    fun ts {w m bs} hm => emit_contains (s := ⟨m, w⟩) hm ts
  -- a header, then what was proved before
  have hbehind : ∀ (hdr : List Chunk) {p : Writing Unit} {w us w' m bs}, Obmembuf.Contains m bs →
      (∀ {m bs}, Obmembuf.Contains m bs → ∃ m', exec p ⟨m, w⟩ = .ok (.ok (), ⟨m', w'⟩) ∧
        m'.Contains (bs ++ bytes us)) →
      ∃ m', exec (emit hdr >>= fun _ => p) ⟨m, w⟩ = .ok (.ok (), ⟨m', w'⟩) ∧
        m'.Contains (bs ++ bytes (hdr ++ us)) := by
    intro hdr p w us w' m bs hm hp
    obtain ⟨m₁, hrun, hm₁⟩ := hemit hdr hm
    obtain ⟨m₂, hruns, hm₂⟩ := hp hm₁
    rw [bytes_append, ← List.append_assoc]
    exact ⟨m₂, (exec_bind_ok hrun).trans hruns, hm₂⟩
  induction v with
  | seq vs ih =>
    intro w ts w' h m bs hm
    obtain ⟨⟨us, w₁⟩, h1, hts⟩ := Fallible.map_eq_ok.mp h
    cases hts
    exact hbehind _ hm (writeAll_put ih h1)
  | obj c parts ih =>
    intro w ts w' h m bs hm
    obtain ⟨⟨us, w₁⟩, h1, hts⟩ := Fallible.map_eq_ok.mp h
    cases hts
    exact hbehind _ hm (writeAll_put ih h1)
  | own t v ih =>
    intro w ts w' h m bs hm
    obtain ⟨⟨us, w₁⟩, h1, hts⟩ := Fallible.map_eq_ok.mp h
    cases hts
    exact hbehind _ hm (ih h1)
  | shared t a v ih =>
    intro w ts w' h m bs hm
    simp only [Context.put] at h
    by_cases hd : C.dedupSharedPtrs = true
    · rw [exec_write_shared hd]
      rw [if_pos hd] at h
      cases hfind : w.find (a, C.subobject t v) with
      | some e =>
        simp only [hfind] at h
        cases h
        exact hemit _ hm
      | none =>
        simp only [hfind] at h
        obtain ⟨⟨us, w₁⟩, h1, hts⟩ := Fallible.map_eq_ok.mp h
        cases hts
        refine hbehind _ hm ?_
        intro m bs hm
        obtain ⟨m', hrun, hm'⟩ := ih h1 hm
        exact ⟨m', exec_bind_ok hrun, hm'⟩
    · rw [if_neg hd] at h
      obtain ⟨⟨us, w₁⟩, h1, hts⟩ := Fallible.map_eq_ok.mp h
      cases hts
      simp only [write, if_neg hd]
      exact hbehind _ hm (ih h1)
  | string str =>
    intro w ts w' h m bs hm
    obtain ⟨us, h1, hts⟩ := Fallible.map_eq_ok.mp h
    cases hts
    simp only [write, h1]
    exact hemit _ hm
  | _ =>
    intro w ts w' h m bs hm
    cases h
    exact hemit _ hm

end Ombstream

end Nodeoze.Bstream
