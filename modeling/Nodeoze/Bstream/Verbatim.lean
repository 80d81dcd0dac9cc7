import Nodeoze.Bstream.Ingest

/-!
# Msgpack objects taken from a stream one after the other

A client calls `get_msgpack_obj_buf` any number of times and drops the buffers it got when it
likes.  Each buffer shares the block of the stream's writer until the next call clones it, so what
the client still holds never changes; and the calls together copy a stream of objects verbatim
exactly if no map in it is too large for `ingest`.
-/

namespace Nodeoze.Bstream

open Reader Endian RefHeap Buffer Msgpack

variable (mem : Nat → Nat → UInt8)

/-! ### One call -/

/-- The world between two calls: the heap is well formed and the writer, once there is one, owns
its buffer. -/
structure World.Ready (s : World) : Prop where
  wf : s.heap.WF guarded
  writer : ∀ w, s.writer = some w → ∃ bytes, Bufwriter.Written s.heap w bytes

/-- A slot that the client holds: it is not the one of the writer. -/
def World.Held (s : World) (j : Nat) : Prop :=
  j < s.heap.slots ∧ ∀ w, s.writer = some w → j ≠ w.buf

theorem takes_openWriter {s : World} (hs : s.Ready) :
    ∃ s', Takes (openWriter mem) s [] () s' ∧ Wrote s' [] ∧
      ∀ j, s.Held j → s'.Held j ∧ s'.heap.bufs j = s.heap.bufs j ∧
        s'.heap.content j = s.heap.content j := by
  obtain ⟨H, x⟩ := s
  cases x with
  | none =>
    obtain ⟨hw, hf⟩ := Bufwriter.written_create mem hs.wf (16 * 1024)
    refine ⟨⟨(Bufwriter.create mem H (16 * 1024)).1,
      some (Bufwriter.create mem H (16 * 1024)).2.reset⟩, fun _ _ _ _ => rfl,
      ⟨_, rfl, Bufwriter.written_reset hw⟩, fun j hj => ?_⟩
    have hne : j ≠ H.slots := Nat.ne_of_lt hj.1
    refine ⟨⟨hj.1.trans_le hf.slots, fun v hv => ?_⟩, hf.bufs j hne, hf.content j hne⟩
    obtain rfl := Option.some.inj hv
    exact hne
  | some w =>
    obtain ⟨bytes, hw⟩ := hs.writer w rfl
    refine ⟨⟨H, some w.reset⟩, fun _ _ _ _ => rfl, ⟨_, rfl, Bufwriter.written_reset hw⟩,
      fun j hj => ⟨⟨hj.1, fun v hv => ?_⟩, rfl, rfl⟩⟩
    obtain rfl := Option.some.inj hv
    exact hj.2 w rfl

theorem takes_takeBuffer {s : World} {bytes : List UInt8} (hs : Wrote s bytes) :
    ∃ s', Takes (takeBuffer mem) s [] s.heap.slots s' ∧ s'.Ready ∧ s'.Held s.heap.slots ∧
      s'.heap.content s.heap.slots = some bytes ∧
      ∀ j, s.Held j → s'.Held j ∧ s'.heap.bufs j = s.heap.bufs j ∧
        s'.heap.content j = s.heap.content j := by
  obtain ⟨H, x⟩ := s
  obtain ⟨w, rfl, hw⟩ := hs
  obtain ⟨H', hget, hw', hcontent, hslots, hf⟩ := hw.getBuffer mem
  have hown : w.buf < H.slots := by
    obtain ⟨h, B, c, o, -⟩ := hw
    exact o.wf.lt_slots o.buf
  have htake : Takes (onWriter fun H w => (Bufwriter.getBuffer mem H w).map (·, w))
      ⟨H, some w⟩ [] () ⟨H', some w⟩ := takes_onWriter (by rw [hget]; rfl)
  refine ⟨⟨H', some w⟩, ?_, ⟨?_, fun v hv => ?_⟩, ⟨hslots, fun v hv => ?_⟩, hcontent,
    fun j hj => ?_⟩
  · exact (Takes.getUser (⟨H, some w⟩ : World)).bind
      (htake.bind (f := fun _ => pure H.slots) (Takes.pure _ _))
  · obtain ⟨h, B, c, o, -⟩ := hw'
    exact o.wf
  · obtain rfl := Option.some.inj hv
    exact ⟨_, hw'⟩
  · obtain rfl := Option.some.inj hv
    exact Nat.ne_of_gt hown
  · have hne := hj.2 w rfl
    obtain ⟨hbufs, hcont⟩ := hf j hne (Nat.ne_of_lt hj.1)
    refine ⟨⟨hj.1.trans hslots, fun v hv => ?_⟩, hbufs, hcont⟩
    obtain rfl := Option.some.inj hv
    exact hne

theorem Kept.held {s s' : World} (hk : Kept s s') {j : Nat} (hj : s.Held j) :
    s'.Held j ∧ s'.heap.bufs j = s.heap.bufs j ∧ s'.heap.content j = s.heap.content j := by
  obtain ⟨w, w', hw, hw', hbuf, hf⟩ := hk
  have hne := hj.2 w hw
  refine ⟨⟨hj.1.trans_le hf.slots, fun v hv => ?_⟩, hf.bufs j hne, hf.content j hne⟩
  rw [hw'] at hv
  obtain rfl := Option.some.inj hv
  rw [hbuf]
  exact hne

/-- One call: it returns the bytes `bs` of the object in front, leaves its objects `G` to the next
call, and no buffer of the client changes. -/
theorem call_spec {s : World} (hs : s.Ready) {t : Obj} (ht : t.WF) (junk : Nat → Nat → UInt8)
    (pos : Nat) (r : List UInt8) (n : Nat) :
    ∃ bs G slot s', t.encode = bs ++ Obj.encodeAll G ∧ (∀ g ∈ G, g.WF) ∧
      (G = [] ↔ t.MapsBelow pairLimit) ∧
      getMsgpackObjBuf mem .big junk ⟨pos, t.encode ++ r, n, s⟩ =
        .ok (slot, ⟨pos + bs.length, Obj.encodeAll G ++ r, n, s'⟩) ∧
      s'.Ready ∧ s'.Held slot ∧ s'.heap.content slot = some bs ∧
      ∀ j, s.Held j → j ≠ slot ∧ s'.Held j ∧ s'.heap.bufs j = s.heap.bufs j ∧
        s'.heap.content j = s.heap.content j := by
  have hfuel : t.nodes ≤ (t.encode ++ r).length + 1 := by
    have := t.nodes_le_length
    rw [List.length_append]
    omega
  obtain ⟨bs, G, henc, hcopy, hG, hnil⟩ := ingests mem t.nodes _ hfuel t ht le_rfl
  obtain ⟨s₁, htake₁, hw₁, hkeep₁⟩ := takes_openWriter mem hs
  obtain ⟨s₂, htake₂, hw₂, hk₂⟩ := hcopy s₁ [] hw₁
  obtain ⟨s₃, htake₃, hready, hheld, hcontent, hkeep₃⟩ := takes_takeBuffer mem hw₂
  refine ⟨bs, G, s₂.heap.slots, s₃, henc, fun g hg => (hG g hg).1, hnil, ?_, hready, hheld,
    hcontent, fun j hj => ?_⟩
  · have hcopied := htake₂.bind (f := fun _ => takeBuffer mem) htake₃
    have hall := htake₁.bind (f := fun _ => do
      ingest mem .big ((t.encode ++ r).length + 1)
      takeBuffer mem) hcopied junk pos (Obj.encodeAll G ++ r) n
    simp only [List.nil_append, List.append_nil] at hall
    rw [← List.append_assoc, ← henc] at hall
    exact hall
  · obtain ⟨hj₁, hb₁, hc₁⟩ := hkeep₁ j hj
    obtain ⟨hj₂, hb₂, hc₂⟩ := hk₂.held hj₁
    obtain ⟨hj₃, hb₃, hc₃⟩ := hkeep₃ j hj₂
    exact ⟨Nat.ne_of_lt hj₂.1, hj₃, hb₃.trans (hb₂.trans hb₁), hc₃.trans (hc₂.trans hc₁)⟩

/-! ### Any number of calls -/

/-- What a client of the stream does: it has an object copied, or drops the `k`-th buffer it got. -/
inductive Act
  | call
  | drop (k : Nat)
  deriving DecidableEq, Repr

/-- The stream and the buffers the client got, oldest first; a dropped one is `none`. -/
structure Client where
  input : Input World
  got : List (Option Nat)

namespace Client

section

variable (junk : Nat → Nat → UInt8)

def act (c : Client) : Act → Except Fault Client
  | .call =>
    match getMsgpackObjBuf mem .big junk c.input with
    | .ok (slot, input) => .ok ⟨input, c.got ++ [some slot]⟩
    | .error e => .error e
  | .drop k =>
    match c.got[k]?.join with
    | none => .ok c
    | some slot =>
      let s := c.input.user
      .ok ⟨{ c.input with user := { s with heap := unshare s.heap slot } }, c.got.set k none⟩

def run : List Act → Client → Except Fault Client
  | [], c => .ok c
  | a :: as, c =>
    match act mem junk c a with
    | .ok c => run as c
    | .error e => .error e

/-- A client at the start of a stream. -/
def start (H : Heap) (pos : Nat) (bytes : List UInt8) : Client := ⟨⟨pos, bytes, 0, ⟨H, none⟩⟩, []⟩

end

/-- The client holds, for each call so far, what that call returned, unless it dropped it. -/
structure Keeps (c : Client) (outs : List (List UInt8)) : Prop where
  ready : c.input.user.Ready
  length : c.got.length = outs.length
  held : ∀ k slot : Nat, c.got[k]? = some (some slot) → c.input.user.Held slot
  distinct : ∀ k l slot : Nat, c.got[k]? = some (some slot) → c.got[l]? = some (some slot) → k = l
  content : ∀ k slot : Nat, c.got[k]? = some (some slot) → c.input.user.heap.content slot = outs[k]?

theorem keeps_start (H : Heap) (hH : H.WF guarded) (pos : Nat) (bytes : List UInt8) :
    (start H pos bytes).Keeps [] where
  ready := ⟨hH, fun _ hw => by cases hw⟩
  length := rfl
  held := fun _ _ h => by cases h
  distinct := fun _ _ _ h => by cases h
  content := fun _ _ h => by cases h

theorem Keeps.call {c : Client} {outs : List (List UInt8)} (h : c.Keeps outs) {slot : Nat}
    {input : Input World} {bs : List UInt8} (hready : input.user.Ready)
    (hslot : input.user.Held slot) (hbs : input.user.heap.content slot = some bs)
    (hkeep : ∀ j, c.input.user.Held j → j ≠ slot ∧ input.user.Held j ∧
      input.user.heap.bufs j = c.input.user.heap.bufs j ∧
      input.user.heap.content j = c.input.user.heap.content j) :
    Keeps ⟨input, c.got ++ [some slot]⟩ (outs ++ [bs]) := by
  have hcases : ∀ k j : Nat, (c.got ++ [some slot])[k]? = some (some j) →
      (c.got[k]? = some (some j)) ∨ (k = c.got.length ∧ j = slot) := by
    intro k j hk
    rw [List.getElem?_append] at hk
    split_ifs at hk with hlt
    · exact Or.inl hk
    · rw [List.getElem?_singleton] at hk
      split_ifs at hk with h0
      exact Or.inr ⟨by omega, (Option.some.inj (Option.some.inj hk)).symm⟩
  refine ⟨hready, by simp [h.length], fun k j hk => ?_, fun k l j hk hl => ?_, fun k j hk => ?_⟩
  · rcases hcases k j hk with hk | ⟨-, rfl⟩
    · exact (hkeep j (h.held k j hk)).2.1
    · exact hslot
  · rcases hcases k j hk with hk | ⟨rfl, hj⟩ <;> rcases hcases l j hl with hl | ⟨rfl, hj'⟩
    · exact h.distinct k l j hk hl
    · exact absurd hj' (hkeep j (h.held k j hk)).1
    · exact absurd hj (hkeep j (h.held l j hl)).1
    · rfl
  · rcases hcases k j hk with hk | ⟨rfl, rfl⟩
    · have hlt : k < outs.length := by
        rw [← h.length]
        exact (List.getElem?_eq_some_iff.mp hk).1
      rw [(hkeep j (h.held k j hk)).2.2.2, h.content k j hk, List.getElem?_append_left hlt]
    · rw [hbs, h.length]
      simp

theorem Keeps.drop {c : Client} {outs : List (List UInt8)} (h : c.Keeps outs) {k slot : Nat}
    (hk : c.got[k]? = some (some slot)) :
    Keeps ⟨{ c.input with user := { c.input.user with
      heap := unshare c.input.user.heap slot } }, c.got.set k none⟩ outs := by
  have hheld := h.held k slot hk
  have hlt : k < outs.length := by
    rw [← h.length]
    exact (List.getElem?_eq_some_iff.mp hk).1
  obtain ⟨hd, hbuf⟩ : ∃ hd, c.input.user.heap.bufs slot = some hd := by
    have hc := h.content k slot hk
    rw [List.getElem?_eq_getElem hlt] at hc
    cases hb : c.input.user.heap.bufs slot with
    | none => simp [RefHeap.content, hb] at hc
    | some hd => exact ⟨hd, rfl⟩
  have hf := h.ready.wf.frame_detach hbuf
  have hcases : ∀ l j : Nat, (c.got.set k none)[l]? = some (some j) →
      l ≠ k ∧ c.got[l]? = some (some j) := by
    intro l j hl
    by_cases hlk : l = k
    · subst hlk
      rw [List.getElem?_set_self (by rw [h.length]; exact hlt)] at hl
      cases Option.some.inj hl
    · rw [List.getElem?_set_ne (Ne.symm hlk)] at hl
      exact ⟨hlk, hl⟩
  have hne : ∀ l j : Nat, l ≠ k → c.got[l]? = some (some j) → j ≠ slot := by
    rintro l j hlk hl rfl
    exact hlk (h.distinct l k j hl hk)
  refine ⟨⟨h.ready.wf.detach hbuf, fun w hw => ?_⟩, by simp [h.length], fun l j hl => ?_,
    fun l m j hl hm => ?_, fun l j hl => ?_⟩
  · obtain ⟨bytes, hd', B, cc, o, hg, hpos, hbytes⟩ := h.ready.writer w hw
    obtain ⟨B', o', -, -, -, ht, -⟩ := o.drop (hheld.2 w hw)
    exact ⟨bytes, hd', B', cc, o', by rw [ht]; exact hg, hpos, hbytes⟩
  · obtain ⟨hlk, hl⟩ := hcases l j hl
    obtain ⟨hj, hjw⟩ := h.held l j hl
    exact ⟨hj.trans_le hf.slots, hjw⟩
  · exact h.distinct l m j (hcases l j hl).2 (hcases m j hm).2
  · obtain ⟨hlk, hl⟩ := hcases l j hl
    exact (hf.content j (hne l j hlk hl)).trans (h.content l j hl)

/-- A run over a forest: one buffer per call, and what is left of the forest. -/
theorem run_spec (junk : Nat → Nat → UInt8) (r : List UInt8) (acts : List Act) :
    ∀ (c : Client) (outs : List (List UInt8)) (F : List Obj), c.Keeps outs → (∀ t ∈ F, t.WF) →
      c.input.rest = Obj.encodeAll F ++ r → acts.count .call ≤ F.length →
      ∃ c' new R, run mem junk acts c = .ok c' ∧ c'.Keeps (outs ++ new) ∧
        new.length = acts.count .call ∧ c'.input.rest = Obj.encodeAll R ++ r ∧
        c'.input.pos + (Obj.encodeAll R).length = c.input.pos + (Obj.encodeAll F).length ∧
        Left (acts.count .call) F R ∧
        ((∀ t ∈ F.take (acts.count .call), t.MapsBelow pairLimit) →
          new = (F.take (acts.count .call)).map Obj.encode) := by
  induction acts with
  | nil =>
    intro c outs F hc _ hrest _
    exact ⟨c, [], F, rfl, by rwa [List.append_nil], rfl, hrest, rfl, Left.zero F, fun _ => rfl⟩
  | cons a acts ih =>
    intro c outs F hc hF hrest hcalls
    cases a with
    | call =>
      simp only [List.count_cons_self] at hcalls ⊢
      obtain _ | ⟨t, F⟩ := F
      · simp at hcalls
      obtain ⟨⟨pos, rest, n, s⟩, got⟩ := c
      obtain rfl : rest = Obj.encodeAll (t :: F) ++ r := hrest
      obtain ⟨bs, G, slot, s', henc, hG, hnil, hcall, hready, hheld, hcontent, hkeep⟩ :=
        call_spec mem hc.ready (hF t List.mem_cons_self) junk pos (Obj.encodeAll F ++ r) n
      have hF' : ∀ u ∈ G ++ F, u.WF := by
        intro u hu
        rcases List.mem_append.mp hu with hu | hu
        · exact hG u hu
        · exact hF u (List.mem_cons_of_mem _ hu)
      have hcalls' : acts.count .call ≤ (G ++ F).length := by
        rw [List.length_append]
        rw [List.length_cons] at hcalls
        omega
      obtain ⟨c', new, R, hrun, hkeeps, hlen, hrest', hpos, hleft, hnew⟩ :=
        ih ⟨⟨pos + bs.length, Obj.encodeAll G ++ (Obj.encodeAll F ++ r), n, s'⟩, got ++ [some slot]⟩
          (outs ++ [bs]) (G ++ F) (hc.call hready hheld hcontent hkeep) hF'
          (by simp [Obj.encodeAll_append]) hcalls'
      refine ⟨c', bs :: new, R, ?_, by simpa using hkeeps, by simp [hlen], hrest', ?_,
        hleft.succ hnil, fun hall => ?_⟩
      · have hact : act mem junk ⟨⟨pos, Obj.encodeAll (t :: F) ++ r, n, s⟩, got⟩ .call =
            .ok ⟨⟨pos + bs.length, Obj.encodeAll G ++ (Obj.encodeAll F ++ r), n, s'⟩,
              got ++ [some slot]⟩ := by
          simp only [act, Obj.encodeAll, List.append_assoc]
          rw [hcall]
        simp only [run, hact]
        exact hrun
      · simp only [Obj.encodeAll, Obj.encodeAll_append, henc, List.length_append] at hpos ⊢
        omega
      · rw [List.take_succ_cons] at hall ⊢
        obtain rfl := hnil.mpr (hall t List.mem_cons_self)
        rw [hnew fun u hu => hall u (List.mem_cons_of_mem _ hu), List.map_cons, henc]
        simp [Obj.encodeAll]
    | drop k =>
      have hcount : (Act.drop k :: acts).count .call = acts.count .call := by
        simp
      rw [hcount] at hcalls ⊢
      cases hk : c.got[k]?.join with
      | none =>
        have hact : act mem junk c (.drop k) = .ok c := by simp only [act, hk]
        obtain ⟨c', new, R, hrun, hrest'⟩ := ih c outs F hc hF hrest hcalls
        exact ⟨c', new, R, by simp only [run, hact]; exact hrun, hrest'⟩
      | some slot =>
        have hdrop := hc.drop (Option.join_eq_some_iff.mp hk)
        obtain ⟨c', new, R, hrun, hrest'⟩ := ih _ outs F hdrop hF hrest hcalls
        refine ⟨c', new, R, ?_, hrest'⟩
        simp only [run, act, hk]
        exact hrun

/-- The calls returned the objects `es`, byte for byte, the buffers that were not dropped still
hold them, and the stream is at `r`. -/
structure Verbatim (c : Client) (pos : Nat) (es : List Obj) (r : List UInt8) : Prop where
  rest : c.input.rest = r
  position : c.input.pos = pos + (Obj.encodeAll es).length
  calls : c.got.length = es.length
  content : ∀ k slot : Nat, c.got[k]? = some (some slot) →
    c.input.user.heap.content slot = es[k]?.map Obj.encode

/-- Any number of calls on a stream of objects, with buffers dropped in between, copies the objects
verbatim exactly if no map in them declares `2^31` pairs or more. -/
theorem verbatim_iff (junk : Nat → Nat → UInt8) (H : Heap) (hH : H.WF guarded) (pos : Nat)
    (es : List Obj) (hes : ∀ e ∈ es, e.WF) (r : List UInt8) (acts : List Act)
    (hcalls : acts.count .call = es.length) :
    (∃ c, run mem junk acts (start H pos (Obj.encodeAll es ++ r)) = .ok c ∧ c.Verbatim pos es r) ↔
      ∀ e ∈ es, e.MapsBelow pairLimit := by
  obtain ⟨c, outs, R, hrun, hkeeps, hlen, hrest, hpos, hleft, houts⟩ :=
    run_spec mem junk r acts (start H pos (Obj.encodeAll es ++ r)) [] es
      (keeps_start H hH pos _) hes rfl hcalls.le
  rw [hcalls] at hlen hleft houts
  rw [List.take_length] at houts
  rw [← hleft.nil_iff]
  constructor
  · rintro ⟨c', hrun', hv⟩
    obtain rfl : c = c' := Except.ok.inj (hrun.symm.trans hrun')
    have hnil : Obj.encodeAll R ++ r = [] ++ r := hrest.symm.trans hv.rest
    exact Obj.encodeAll_eq_nil.mp (List.append_cancel_right hnil)
  · rintro rfl
    have hall := hleft.nil_iff.mp rfl
    refine ⟨c, hrun, hrest, by simpa [Obj.encodeAll, start] using hpos, ?_, fun k slot hk => ?_⟩
    · simpa [hlen] using hkeeps.length
    · rw [hkeeps.content k slot hk, List.nil_append, houts hall, List.getElem?_map]

/-- A map of a string and an array, and a number. -/
def sampleObjs : List Obj :=
  [.map .fix [.leaf (.str .fix [0x61]), .array .w16 [.leaf (.fixint 7), .leaf (.bool true)]],
    .leaf (.num .uint16 [1, 44])]

theorem sampleObjs_wf : ∀ e ∈ sampleObjs, e.WF := by
  rw [← Obj.wfAll_iff]
  simp [sampleObjs, Obj.WFAll, Obj.WF, Leaf.WF, Form.Fits, NumCode.width]

/-- The first buffer is dropped while the second object is still to come. -/
theorem sampleObjs_verbatim :
    ∃ c, run (fun _ _ => 0) (fun _ _ => 0) [.call, .drop 0, .call]
        (start RefHeap.empty 3 (Obj.encodeAll sampleObjs ++ [0xc1])) = .ok c ∧
      c.Verbatim 3 sampleObjs [0xc1] :=
  (verbatim_iff _ _ _ WF.empty 3 sampleObjs sampleObjs_wf [0xc1] [.call, .drop 0, .call]
    (by decide)).mpr (by
      rw [← Obj.mapsBelowAll_iff]
      simp [sampleObjs, Obj.MapsBelowAll, Obj.MapsBelow])

/-- A map that declares `n` pairs in a 32-bit header, all of them nil. -/
def nilMap (n : Nat) : Obj := .map .w32 (List.replicate (2 * n) (.leaf .nil))

theorem nilMap_wf {n : Nat} (hn : n < 2 ^ 32) : (nilMap n).WF := by
  refine ⟨by decide, ?_, ?_, ?_⟩
  · simp
  · simp [Form.Fits]
    omega
  · rw [Obj.wfAll_iff]
    intro t ht
    rw [(List.mem_replicate.mp ht).2]
    trivial

theorem nilMap_not_below {n : Nat} (hn : pairLimit ≤ n) : ¬ (nilMap n).MapsBelow pairLimit := by
  intro h
  have := h.1 rfl
  rw [List.length_replicate] at this
  omega

/-- `2^31` pairs of nil: the loop asks for `2^32` objects, which is none. -/
theorem nilMap_cut_short :
    (nilMap (2 ^ 31)).WF ∧
      ¬ ∃ c, run (fun _ _ => 0) (fun _ _ => 0) [.call]
          (start RefHeap.empty 0 (Obj.encodeAll [nilMap (2 ^ 31)] ++ [])) = .ok c ∧
        c.Verbatim 0 [nilMap (2 ^ 31)] [] := by
  refine ⟨nilMap_wf (by decide), ?_⟩
  rintro ⟨c', hrun', hv⟩
  obtain ⟨c, outs, R, hrun, -, -, hrest, -, hleft, -⟩ :=
    run_spec (fun _ _ => 0) (fun _ _ => 0) [] [.call]
      (start RefHeap.empty 0 (Obj.encodeAll [nilMap (2 ^ 31)] ++ [])) [] [nilMap (2 ^ 31)]
      (keeps_start _ WF.empty 0 _)
      (fun t ht => List.mem_singleton.mp ht ▸ nilMap_wf (by decide)) rfl le_rfl
  obtain rfl : c = c' := Except.ok.inj (hrun.symm.trans hrun')
  have hmore : 1 < R.length + 1 :=
    hleft.more ⟨nilMap (2 ^ 31), List.mem_singleton_self _, nilMap_not_below le_rfl⟩
  have hnil : Obj.encodeAll R = [] := by
    rw [List.append_nil] at hrest
    exact hrest.symm.trans hv.rest
  rw [Obj.encodeAll_eq_nil.mp hnil] at hmore
  simp at hmore

end Client

end Nodeoze.Bstream
