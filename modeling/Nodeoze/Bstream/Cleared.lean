import Nodeoze.Bstream.SharedObjects
import Nodeoze.Bstream.Ombstream

/-!
# Cleared output streams

`ombstream::clear` resets the stream buffer and leaves the table of saved pointers.  A cleared
stream is one with an empty buffer and an old table; against a new stream, it writes the same
bytes as long as neither the old table nor a pointer met twice gives occasion to a back reference.
-/

namespace Nodeoze.Bstream

open Reader TwoRuns

namespace SavedTags

theorem find_save_ne {w : SavedTags} {ptr q : Nat × Nat} {tag : Int} (h : q ≠ ptr) :
    (w.save ptr tag).find q = w.find q := by
  have hne : (q == ptr) = false := by simpa using h
  unfold find save
  dsimp only
  split_ifs
  · rfl
  · simp [List.lookup_append, List.lookup_cons, hne]

theorem find_save_self {w : SavedTags} {ptr : Nat × Nat} {tag : Int} (h : w.find ptr = none) :
    (w.save ptr tag).find ptr = some (tag, w.next) := by
  have hlookup : w.ptrs.lookup ptr = none := h
  simp [find, save, hlookup, List.lookup_append]

theorem find_save_some {w : SavedTags} {ptr : Nat × Nat} {tag : Int} {e : Int × Nat}
    (h : w.find ptr = some e) : (w.save ptr tag).find ptr = some e := by
  have hkept : (w.save ptr tag).ptrs = w.ptrs := by simp [save, h]
  rw [find, hkept]
  exact h

theorem find_of_notMem {w : SavedTags} {ptr : Nat × Nat} (h : ptr ∉ w.ptrs.map Prod.fst) :
    w.find ptr = none := by
  rw [find, List.lookup_eq_none_iff]
  intro e he
  rw [bne_iff_ne]
  rintro rfl
  exact h (List.mem_map_of_mem he)

end SavedTags

namespace Context

variable (C : Context)

mutual

/-- The shared pointers in a value, in the order in which they are saved. -/
def pointers : Val → List (Nat × Nat)
  | .seq vs => pointersAll vs
  | .obj _ parts => pointersAll parts
  | .own _ v => pointers v
  | .shared t a v => pointers v ++ [(a, C.subobject t v)]
  | _ => []

def pointersAll : List Val → List (Nat × Nat)
  | [] => []
  | v :: vs => pointers v ++ pointersAll vs

end

mutual

/-- No shared pointer of the value is in `saved` when it is met, or has been saved since. -/
def unsaved : Val → List (Nat × Nat) → Bool
  | .seq vs, saved => unsavedAll vs saved
  | .obj _ parts, saved => unsavedAll parts saved
  | .own _ v, saved => unsaved v saved
  | .shared t a v, saved => !decide ((a, C.subobject t v) ∈ saved) && unsaved v saved
  | _, _ => true

def unsavedAll : List Val → List (Nat × Nat) → Bool
  | [], _ => true
  | v :: vs, saved => unsaved v saved && unsavedAll vs (saved ++ C.pointers v)

end

end Context

namespace Ombstream

variable {C : Context}

/-! ### Two streams -/

/-- A relation between two tables, given the pointers that may have been saved in either: both
answer alike for a pointer that was not, or, if the relation is that close, for every pointer. -/
structure Locked (C : Context) (close : Prop)
    (T : List (Nat × Nat) → SavedTags → SavedTags → Prop) : Prop where
  mono : ∀ {saved w f}, T saved w f → ∀ more, T (saved ++ more) w f
  find : ∀ {saved w f ptr}, T saved w f → close ∨ ptr ∉ saved → w.find ptr = f.find ptr
  save : ∀ {saved w f}, C.dedupSharedPtrs = true → T saved w f → ∀ ptr t,
    T (saved ++ [ptr]) (w.save ptr (C.typeTag t)) (f.save ptr (C.typeTag t))

/-- A relation between two buffers that writing the same to both keeps. -/
def Keeps (Q : Obmembuf → Obmembuf → Prop) : Prop :=
  ∀ {m m'}, Q m m' → ∀ ch, ∃ n n', m.putChunk ch = .ok n ∧ m'.putChunk ch = .ok n' ∧ Q n n'

structure Paired (Q : Obmembuf → Obmembuf → Prop)
    (T : List (Nat × Nat) → SavedTags → SavedTags → Prop) (saved : List (Nat × Nat))
    (s s' : Ombstream) : Prop where
  membuf : Q s.membuf s'.membuf
  deduper : T saved s.deduper s'.deduper

section

variable {Q : Obmembuf → Obmembuf → Prop} {T : List (Nat × Nat) → SavedTags → SavedTags → Prop}
  {close : Prop} {saved : List (Nat × Nat)} {s s' : Ombstream}

theorem Paired.mono (h : Paired Q T saved s s') (hT : Locked C close T) (more : List (Nat × Nat)) :
    Paired Q T (saved ++ more) s s' :=
  ⟨h.membuf, hT.mono h.deduper more⟩

theorem emit_alike (hQ : Keeps Q) (ts : List Chunk) :
    Alike (Paired Q T saved) (Paired Q T saved) (emit ts) (emit ts) := by
  have hfold : ∀ (ts : List Chunk) {m m'}, Q m m' → ∃ n n',
      ts.foldlM Obmembuf.putChunk m = .ok n ∧ ts.foldlM Obmembuf.putChunk m' = .ok n' ∧ Q n n' := by
    intro ts
    induction ts with
    | nil => exact fun {m m'} h => ⟨m, m', rfl, rfl, h⟩
    | cons t ts ih =>
      intro m m' h
      obtain ⟨n, n', hn, hn', h1⟩ := hQ h t
      obtain ⟨k, k', hk, hk', h2⟩ := ih h1
      refine ⟨k, k', ?_, ?_, h2⟩
      · rw [List.foldlM_cons, hn]
        exact hk
      · rw [List.foldlM_cons, hn']
        exact hk'
  intro s s' hs
  obtain ⟨n, n', hn, hn', h⟩ := hfold ts hs.membuf
  exact ⟨_, _, _, exec_emit hn, exec_emit hn', h, hs.deduper⟩

/-- Writing a value keeps two streams alike. -/
def Lockstep (C : Context) (Q : Obmembuf → Obmembuf → Prop)
    (T : List (Nat × Nat) → SavedTags → SavedTags → Prop) (close : Prop) (v : Val) : Prop :=
  ∀ saved, close ∨ C.unsaved v saved = true →
    Alike (Paired Q T saved) (Paired Q T (saved ++ C.pointers v)) (write C v) (write C v)

theorem writeAll_alike (hT : Locked C close T) {vs : List Val}
    (hvs : ∀ v ∈ vs, Lockstep C Q T close v) : ∀ saved, close ∨ C.unsavedAll vs saved = true →
      Alike (Paired Q T saved) (Paired Q T (saved ++ C.pointersAll vs)) (writeAll C vs)
        (writeAll C vs) := by
  induction vs with
  | nil =>
    intro saved _
    rw [Context.pointersAll, List.append_nil]
    exact .pure ()
  | cons v vs ih =>
    intro saved hun
    obtain ⟨hv, hvs⟩ := List.forall_mem_cons.mp hvs
    rw [Context.unsavedAll, Bool.and_eq_true] at hun
    rw [Context.pointersAll, ← List.append_assoc]
    refine Alike.bind (hv saved (hun.imp_right And.left)) (fun _ => ?_) fun _ _ h => h.mono hT _
    exact ih hvs _ (hun.imp_right And.right)

theorem write_alike (hQ : Keeps Q) (hT : Locked C close T) (v : Val) : Lockstep C Q T close v := by
  -- a header in front
  have hbehind : ∀ {hdr : List Chunk} {p : Writing Unit} {saved more}, Alike (Paired Q T saved)
      (Paired Q T (saved ++ more)) p p → Alike (Paired Q T saved) (Paired Q T (saved ++ more))
        (emit hdr >>= fun _ => p) (emit hdr >>= fun _ => p) :=
    fun hp => Alike.bind (emit_alike hQ _) (fun _ => hp) fun _ _ h => h.mono hT _
  have hscalar : ∀ (ts : List Chunk) (saved : List (Nat × Nat)),
      Alike (Paired Q T saved) (Paired Q T (saved ++ [])) (emit ts) (emit ts) := by
    intro ts saved
    rw [List.append_nil]
    exact emit_alike hQ ts
  induction v with
  | seq vs ih => exact fun saved hun => hbehind (writeAll_alike hT ih saved hun)
  | obj c parts ih => exact fun saved hun => hbehind (writeAll_alike hT ih saved hun)
  | own t v ih => exact fun saved hun => hbehind (ih saved hun)
  | shared t a v ih =>
    intro saved hun
    rw [Context.unsaved, Bool.and_eq_true] at hun
    have hin := ih saved (hun.imp_right And.right)
    rw [Context.pointers, ← List.append_assoc]
    by_cases hd : C.dedupSharedPtrs = true
    · intro s s' hs
      have hptr : close ∨ (a, C.subobject t v) ∉ saved := hun.imp_right fun h => by simpa using h.1
      have hfind := hT.find hs.deduper hptr
      rw [exec_write_shared hd, exec_write_shared hd, ← hfind]
      cases s.deduper.find (a, C.subobject t v) with
      | some e =>
        obtain ⟨r, u, u', hu, hu', h⟩ := emit_alike hQ _ s s' hs
        exact ⟨r, u, u', hu, hu', (h.mono hT _).mono hT _⟩
      | none =>
        have hsave : Alike (Paired Q T (saved ++ C.pointers v))
            (Paired Q T (saved ++ C.pointers v ++ [(a, C.subobject t v)]))
            (savePtr (a, C.subobject t v) (C.typeTag (v.dynamicTy t)))
            (savePtr (a, C.subobject t v) (C.typeTag (v.dynamicTy t))) :=
          Alike.modify fun _ _ h => ⟨h.membuf, hT.save hd h.deduper _ _⟩
        have hfull := Alike.bind hin (fun _ => hsave) fun _ _ h => h.mono hT _
        rw [List.append_assoc] at hfull ⊢
        exact hbehind hfull s s' hs
    · simp only [write, if_neg hd]
      exact (hbehind hin).imp fun _ _ h => h.mono hT _
  | string str =>
    intro saved _
    simp only [write, Context.pointers, List.append_nil]
    cases putString C.order str with
    | ok ts => exact emit_alike hQ ts
    | error e => exact .throw e
  | _ => exact fun saved _ => hscalar _ saved

end

/-! ### Any history -/

/-- What the writes of a stream can make of its table. -/
structure Reached (C : Context) (w : SavedTags) : Prop where
  unused : C.dedupSharedPtrs = false → w = {}
  next : w = {} ∨ 0 < w.next
  saved : ∀ ptr e, w.find ptr = some e → InRange true .w32 e.1 ∧ e.2 < w.next

theorem reached_empty (C : Context) : Reached C {} :=
  ⟨fun _ => rfl, .inl rfl, fun _ _ h => nomatch h⟩

theorem Reached.save {w : SavedTags} (h : Reached C w) (hd : C.dedupSharedPtrs = true)
    (ptr : Nat × Nat) (t : Ty) : Reached C (w.save ptr (C.typeTag t)) where
  unused := by
    intro hno
    rw [hd] at hno
    cases hno
  next := .inr (Nat.succ_pos _)
  saved := by
    have hold : ∀ {q e}, w.find q = some e →
        InRange true .w32 e.1 ∧ e.2 < (w.save ptr (C.typeTag t)).next := by
      intro q e he
      obtain ⟨htag, hlt⟩ := h.saved q e he
      exact ⟨htag, Nat.lt_succ_of_lt hlt⟩
    intro q e he
    by_cases hq : q = ptr
    · subst hq
      cases hfind : w.find q with
      | none =>
        rw [SavedTags.find_save_self hfind] at he
        cases he
        exact ⟨C.typeTag_inRange t, Nat.lt_succ_self _⟩
      | some e' =>
        rw [SavedTags.find_save_some hfind] at he
        exact hold (hfind.trans he)
    · rw [SavedTags.find_save_ne hq] at he
      exact hold he

/-- A run is alike to itself, and keeps what its primitives keep. -/
theorem write_keeps {s : Ombstream} (hm : s.membuf.Sound) (hw : Reached C s.deduper) (v : Val) :
    ∃ r s', exec (write C v) s = .ok (r, s') ∧ s'.membuf.Sound ∧ Reached C s'.deduper := by
  have hQ : Keeps fun m m' => m = m' ∧ m.Sound := by
    rintro m _ ⟨rfl, hm⟩ ch
    obtain ⟨n, hput, hn⟩ := hm.putChunk ch
    exact ⟨n, n, hput, hput, rfl, hn⟩
  have hT : Locked C True fun _ w f => w = f ∧ Reached C w :=
    { mono := fun h _ => h
      find := fun h _ => by rw [h.1]
      save := by
        rintro saved w _ hd ⟨rfl, hw⟩ ptr t
        exact ⟨rfl, hw.save hd ptr t⟩ }
  obtain ⟨r, t, t', hrun, -, h⟩ :=
    write_alike hQ hT v [] (.inl trivial) s s ⟨⟨rfl, hm⟩, rfl, hw⟩
  obtain ⟨heq, hreached⟩ := h.deduper
  exact ⟨r, t, hrun, h.membuf.2, hreached⟩

theorem calls_keep {s : Ombstream} (hm : s.membuf.Sound) (hw : Reached C s.deduper)
    (hist : List Call) :
    ∃ s', hist.foldlM (call C) s = .ok s' ∧ s'.membuf.Sound ∧ Reached C s'.deduper := by
  induction hist generalizing s with
  | nil => exact ⟨s, rfl, hm, hw⟩
  | cons c hist ih =>
    obtain ⟨s₁, hcall, hm₁, hw₁⟩ : ∃ s₁, call C s c = .ok s₁ ∧ s₁.membuf.Sound ∧
        Reached C s₁.deduper := by
      cases c with
      | write v =>
        obtain ⟨r, s₁, hrun, hm₁, hw₁⟩ := write_keeps hm hw v
        refine ⟨s₁, ?_, hm₁, hw₁⟩
        rw [call, hrun]
        rfl
      | membuf op =>
        obtain ⟨o, m, hstep, hm₁⟩ := hm.step op
        refine ⟨{ s with membuf := m }, ?_, hm₁, hw⟩
        rw [call, hstep]
        rfl
    obtain ⟨s₂, hcalls, h⟩ := ih hm₁ hw₁
    refine ⟨s₂, ?_, h⟩
    rw [List.foldlM_cons, hcall]
    exact hcalls

/-! ### The later writes -/

/-- The same bytes in both buffers. -/
def BothContain (m m' : Obmembuf) : Prop := ∃ bs, m.Contains bs ∧ m'.Contains bs

theorem keeps_bothContain : Keeps BothContain := by
  rintro m m' ⟨bs, hm, hm'⟩ ch
  obtain ⟨n, hput, hn⟩ := hm.putChunk ch
  obtain ⟨n', hput', hn'⟩ := hm'.putChunk ch
  exact ⟨n, n', hput, hput', _, hn, hn'⟩

theorem getBuffer_contains {s : Ombstream} {bs : List UInt8} (hm : s.membuf.Contains bs) :
    ∃ s', getBuffer s = .ok (bs, s') := by
  obtain ⟨slot, m', hcall, hcontent⟩ := hm.getBuffer
  refine ⟨{ s with membuf := m' }, ?_⟩
  simp only [getBuffer, hcall, ok_bind, hcontent, Obmembuf.defined_some]
  rfl

theorem produced_alike {T : List (Nat × Nat) → SavedTags → SavedTags → Prop} {close : Prop}
    (hT : Locked C close T) (vs : List Val) : ∀ {saved s s'},
      close ∨ C.unsavedAll vs saved = true → Paired BothContain T saved s s' →
      ∃ r, produced C s vs = .ok r ∧ produced C s' vs = .ok r := by
  induction vs with
  | nil =>
    intro saved s s' _ hs
    obtain ⟨bs, hm, hm'⟩ := hs.membuf
    obtain ⟨t, ht⟩ := getBuffer_contains hm
    obtain ⟨t', ht'⟩ := getBuffer_contains hm'
    refine ⟨([], bs), ?_, ?_⟩
    · rw [produced, ht]
      rfl
    · rw [produced, ht']
      rfl
  | cons v vs ih =>
    intro saved s s' hun hs
    rw [Context.unsavedAll, Bool.and_eq_true] at hun
    obtain ⟨r, t, t', hrun, hrun', ht⟩ :=
      write_alike keeps_bothContain hT v saved (hun.imp_right And.left) s s' hs
    obtain ⟨⟨rs, bs⟩, hrest, hrest'⟩ := ih (hun.imp_right And.right) ht
    refine ⟨(r :: rs, bs), ?_, ?_⟩
    · simp only [produced, hrun, ok_bind, hrest]
      rfl
    · simp only [produced, hrun', ok_bind, hrest']
      rfl

theorem locked_eq (C : Context) : Locked C True fun _ w f => w = f where
  mono := fun h _ => h
  find := fun h _ => by rw [h]
  save := fun _ h _ _ => by rw [h]

theorem produced_ok {m : Obmembuf} {bs : List UInt8} (hm : m.Contains bs) (w : SavedTags)
    (vs : List Val) : ∃ r, produced C ⟨m, w⟩ vs = .ok r := by
  have hself : Paired BothContain (fun _ w f => w = f) [] ⟨m, w⟩ ⟨m, w⟩ := ⟨⟨bs, hm, hm⟩, rfl⟩
  obtain ⟨r, hr, -⟩ := produced_alike (locked_eq C) vs (.inl trivial) hself
  exact ⟨r, hr⟩

/-- Where nothing is refused, the bytes are those of `putAll`. -/
theorem produced_put (vs : List Val) : ∀ {w ts w'}, C.putAll vs w = .ok (ts, w') →
    ∀ {m : Obmembuf} {bs}, m.Contains bs →
      produced C ⟨m, w⟩ vs = .ok (vs.map fun _ => .ok (), bs ++ bytes ts) := by
  induction vs with
  | nil =>
    intro w ts w' h m bs hm
    cases h
    obtain ⟨t, ht⟩ := getBuffer_contains (s := ⟨m, w⟩) hm
    rw [produced, ht, bytes_nil, List.append_nil]
    rfl
  | cons v vs ih =>
    intro w cs w' h m bs hm
    obtain ⟨⟨ts, w₁⟩, h1, hrest⟩ := Fallible.bind_eq_ok.mp (show (C.put v w >>= _) = _ from h)
    obtain ⟨⟨us, w₂⟩, h2, hcs⟩ := Fallible.map_eq_ok.mp hrest
    cases hcs
    obtain ⟨m₁, hrun, hm₁⟩ := refines v h1 hm
    rw [bytes_append, ← List.append_assoc]
    simp only [produced, hrun, ok_bind, ih h2 hm₁]
    rfl

end Ombstream

/-! ### What the old table changes -/

namespace Context

variable {C : Context} {n : Nat} {old met : List (Nat × Nat)} {w f : SavedTags}

/-- The table `w` of a cleared stream and the table `f` of a new one after the same writes: `n` was
the next serial number of the cleared stream and `old` its pointers, and `met` are the pointers
saved since. -/
structure Behind (n : Nat) (old met : List (Nat × Nat)) (w f : SavedTags) : Prop where
  next : w.next = n + f.next
  count : f.next = met.length
  later : ∀ ptr ∉ old, w.find ptr = (f.find ptr).map fun e => (e.1, n + e.2)
  earlier : ∀ ptr ∈ old, f.find ptr = none ∧
    ∃ e, w.find ptr = some e ∧ InRange true .w32 e.1 ∧ e.2 < n
  found : ∀ ptr, ptr ∈ met ↔ (f.find ptr).isSome = true
  serial : ∀ ptr e, f.find ptr = some e → e.2 < f.next

theorem Behind.find_of_notMem (h : Behind n old met w f) {ptr : Nat × Nat} (hold : ptr ∉ old)
    (hmet : ptr ∉ met) : w.find ptr = none ∧ f.find ptr = none := by
  rw [h.found] at hmet
  have hnone : f.find ptr = none := by simpa using hmet
  refine ⟨?_, hnone⟩
  rw [h.later ptr hold, hnone]
  rfl

theorem Behind.save (h : Behind n old met w f) {ptr : Nat × Nat} (hptr : ptr ∉ old) (tag : Int) :
    Behind n old (met ++ [ptr]) (w.save ptr tag) (f.save ptr tag) where
  next := by
    have hnext := h.next
    show w.next + 1 = n + (f.next + 1)
    omega
  count := by
    have hcount := h.count
    show f.next + 1 = _
    simp [hcount]
  later := by
    intro q hq
    by_cases heq : q = ptr
    · subst heq
      have hlater := h.later q hq
      cases hfind : f.find q with
      | none =>
        rw [hfind] at hlater
        rw [SavedTags.find_save_self hfind, SavedTags.find_save_self hlater, h.next]
        rfl
      | some e =>
        rw [hfind] at hlater
        rw [SavedTags.find_save_some hfind, SavedTags.find_save_some hlater]
        rfl
    · rw [SavedTags.find_save_ne heq, SavedTags.find_save_ne heq]
      exact h.later q hq
  earlier := by
    intro q hq
    have hne : q ≠ ptr := by
      rintro rfl
      exact hptr hq
    rw [SavedTags.find_save_ne hne, SavedTags.find_save_ne hne]
    exact h.earlier q hq
  found := by
    intro q
    rw [List.mem_append, List.mem_singleton, h.found]
    by_cases heq : q = ptr
    · subst heq
      cases hfind : f.find q with
      | none => simp [SavedTags.find_save_self hfind]
      | some e => simp [SavedTags.find_save_some hfind]
    · rw [SavedTags.find_save_ne heq]
      simp [heq]
  serial := by
    intro q e he
    show e.2 < f.next + 1
    by_cases heq : q = ptr
    · subst heq
      cases hfind : f.find q with
      | none =>
        rw [SavedTags.find_save_self hfind] at he
        cases he
        exact Nat.lt_succ_self _
      | some e' =>
        rw [SavedTags.find_save_some hfind] at he
        exact Nat.lt_succ_of_lt (h.serial q e (hfind.trans he))
    · rw [SavedTags.find_save_ne heq] at he
      exact Nat.lt_succ_of_lt (h.serial q e he)

/-- Two back references with one type tag differ if their numbers do. -/
theorem diverge_serial {j k : Nat} (hj : j < 2 ^ 64) (hk : k < 2 ^ 64) (hne : j ≠ k) (tag : Int) :
    Diverge (bytes (C.writeTypeTag tag ++ putUnsigned C.order j))
      (bytes (C.writeTypeTag tag ++ putUnsigned C.order k)) := by
  have hread : ∀ {i : Nat}, i < 2 ^ 64 → Reads eof (getInt C.order false .w64) ({} : SavedPtrs)
      (putUnsigned C.order i) (i : Int) {} := by
    intro i hi
    exact reads_getInt_unsigned C.order (by simp [InRange, Width.size]; omega) _
  rw [bytes_append, bytes_append]
  exact ((hread hj).diverge (hread hk) (by omega)).append_left _

/-- A back reference differs from an object that is not a bare number. -/
theorem diverge_object {tag tag' : Int} {k : Nat} {us : List Chunk} (htag : InRange true .w32 tag)
    (htag' : InRange true .w32 tag') (hus : StartsWith OtherCode us) :
    Diverge (bytes (C.writeTypeTag tag ++ putUnsigned C.order k))
      (bytes (C.writeTypeTag tag' ++ us)) := by
  rw [bytes_append, bytes_append]
  by_cases heq : tag = tag'
  · subst heq
    refine Diverge.append_left ?_ _
    obtain ⟨c, ts, hts, -, hpos, hmis⟩ := putUnsigned_code (n := k) C.order
    obtain ⟨c', us, rfl, ⟨-, hpos'⟩, hne⟩ := hus
    rw [hts, bytes_cons, bytes_cons]
    refine diverge_cons ?_ _ _
    rintro rfl
    rw [hpos'] at hpos
    exact hne (hmis (by simpa using hpos))
  · exact ((reads_readTypeTag C htag {}).diverge (reads_readTypeTag C htag' {}) heq).append _ _

/-- What the two streams write for the same, which meets the pointers `later`: the same if none of
them has been saved, and else bytes that differ. -/
def Compared (n : Nat) (old met later : List (Nat × Nat)) (fresh : Bool) (ts us : List Chunk)
    (w f : SavedTags) : Prop :=
  fresh = true ∧ ts = us ∧ Behind n old (met ++ later) w f ∨
    fresh = false ∧ Diverge (bytes ts) (bytes us)

section

variable {later : List (Nat × Nat)} {fresh : Bool} {ts us : List Chunk}

theorem Compared.behind (h : Compared n old met later fresh ts us w f) (hdr : List Chunk) :
    Compared n old met later fresh (hdr ++ ts) (hdr ++ us) w f := by
  rcases h with ⟨hfresh, rfl, hb⟩ | ⟨hfresh, hdiv⟩
  · exact Or.inl ⟨hfresh, rfl, hb⟩
  · rw [Compared, bytes_append, bytes_append]
    exact Or.inr ⟨hfresh, hdiv.append_left _⟩

end

/-- Writing a value compares two streams, where no pointer points at a bare number. -/
def Compares (C : Context) (n : Nat) (old : List (Nat × Nat)) (v : Val) : Prop :=
  (∀ x ∈ v.nodes, isNumber x.2 = false) → ∀ {met w f}, Behind n old met w f →
    n + (met.length + (C.pointers v).length) < 2 ^ 64 →
    ∀ {ts w' us f'}, C.put v w = .ok (ts, w') → C.put v f = .ok (us, f') →
      Compared n old met (C.pointers v) (C.unsaved v (old ++ met)) ts us w' f'

theorem putAll_compares {vs : List Val} (hvs : ∀ v ∈ vs, Compares C n old v)
    (hnum : ∀ v ∈ vs, ∀ x ∈ v.nodes, isNumber x.2 = false) : ∀ {met w f}, Behind n old met w f →
    n + (met.length + (C.pointersAll vs).length) < 2 ^ 64 →
    ∀ {ts w' us f'}, C.putAll vs w = .ok (ts, w') → C.putAll vs f = .ok (us, f') →
      Compared n old met (C.pointersAll vs) (C.unsavedAll vs (old ++ met)) ts us w' f' := by
  induction vs with
  | nil =>
    intro met w f hb _ ts w' us f' h h'
    cases h
    cases h'
    refine Or.inl ⟨rfl, rfl, ?_⟩
    rwa [pointersAll, List.append_nil]
  | cons v vs ih =>
    intro met w f hb hlt ts w' us f' h h'
    obtain ⟨hv, hvs⟩ := List.forall_mem_cons.mp hvs
    obtain ⟨hnv, hnvs⟩ := List.forall_mem_cons.mp hnum
    obtain ⟨⟨ts₁, w₁⟩, h1, hrest⟩ := Fallible.bind_eq_ok.mp (show (C.put v w >>= _) = _ from h)
    obtain ⟨⟨ts₂, w₂⟩, h2, hts⟩ := Fallible.map_eq_ok.mp hrest
    obtain ⟨⟨us₁, f₁⟩, h1', hrest'⟩ := Fallible.bind_eq_ok.mp (show (C.put v f >>= _) = _ from h')
    obtain ⟨⟨us₂, f₂⟩, h2', hus⟩ := Fallible.map_eq_ok.mp hrest'
    cases hts
    cases hus
    rw [pointersAll, List.length_append] at hlt
    rw [unsavedAll, pointersAll, List.append_assoc old]
    rcases hv hnv hb (by omega) h1 h1' with ⟨hun, rfl, hb₁⟩ | ⟨hun, hdiv⟩
    · rw [hun, Bool.true_and]
      have hlen : (met ++ C.pointers v).length = met.length + (C.pointers v).length := by simp
      have hcmp := (ih hvs hnvs hb₁ (by omega) h2 h2').behind ts₁
      rwa [Compared, List.append_assoc] at hcmp
    · rw [hun, Bool.false_and, Compared, bytes_append, bytes_append]
      exact Or.inr ⟨rfl, hdiv.append _ _⟩

theorem put_compares (hd : C.dedupSharedPtrs = true) (hn : 0 < n) (v : Val) : Compares C n old v := by
  induction v with
  | seq vs ih =>
    intro hnum met w f hb hlt ts w' us f' h h'
    obtain ⟨⟨ts₁, w₁⟩, h1, hts⟩ := Fallible.map_eq_ok.mp h
    obtain ⟨⟨us₁, f₁⟩, h1', hus⟩ := Fallible.map_eq_ok.mp h'
    cases hts
    cases hus
    have hall : ∀ v ∈ vs, ∀ x ∈ v.nodes, isNumber x.2 = false :=
      fun v hv x hx => hnum x (by simpa [Val.nodes] using ⟨v, hv, hx⟩)
    exact (putAll_compares ih hall hb hlt h1 h1').behind _
  | obj c parts ih =>
    intro hnum met w f hb hlt ts w' us f' h h'
    obtain ⟨⟨ts₁, w₁⟩, h1, hts⟩ := Fallible.map_eq_ok.mp h
    obtain ⟨⟨us₁, f₁⟩, h1', hus⟩ := Fallible.map_eq_ok.mp h'
    cases hts
    cases hus
    have hall : ∀ v ∈ parts, ∀ x ∈ v.nodes, isNumber x.2 = false :=
      fun v hv x hx => hnum x (by simpa [Val.nodes] using ⟨v, hv, hx⟩)
    exact (putAll_compares ih hall hb hlt h1 h1').behind _
  | own t v ih =>
    intro hnum met w f hb hlt ts w' us f' h h'
    obtain ⟨⟨ts₁, w₁⟩, h1, hts⟩ := Fallible.map_eq_ok.mp h
    obtain ⟨⟨us₁, f₁⟩, h1', hus⟩ := Fallible.map_eq_ok.mp h'
    cases hts
    cases hus
    exact (ih hnum hb hlt h1 h1').behind _
  | shared t a v ih =>
    intro hnum met w f hb hlt ts w' us f' h h'
    have hnv : isNumber v = false := hnum (a, v) (by simp [Val.nodes])
    have hin : ∀ x ∈ v.nodes, isNumber x.2 = false := fun x hx => hnum x (by simp [Val.nodes, hx])
    have htag := C.typeTag_inRange (v.dynamicTy t)
    simp only [pointers, List.length_append, List.length_singleton] at hlt
    simp only [put, if_pos hd] at h h'
    by_cases hold : (a, C.subobject t v) ∈ old
    · -- saved before the clear: the cleared stream writes its old number
      obtain ⟨hnone, e, hsome, hinr, -⟩ := hb.earlier _ hold
      simp only [hsome] at h
      simp only [hnone] at h'
      obtain ⟨⟨us₁, f₁⟩, h1', hus⟩ := Fallible.map_eq_ok.mp h'
      cases h
      cases hus
      exact Or.inr ⟨by simp [unsaved, hold], diverge_object hinr htag (put_other hnv h1')⟩
    by_cases hmet : (a, C.subobject t v) ∈ met
    · -- saved since: the serial numbers are `n` apart
      obtain ⟨e, hsome⟩ := Option.isSome_iff_exists.mp ((hb.found _).mp hmet)
      have hsome' := hb.later _ hold
      rw [hsome] at hsome'
      simp only [hsome'] at h
      simp only [hsome] at h'
      cases h
      cases h'
      have hserial := hb.serial _ e hsome
      have hcount := hb.count
      exact Or.inr ⟨by simp [unsaved, hmet], diverge_serial (by omega) (by omega) (by omega) _⟩
    · obtain ⟨hnone, hnone'⟩ := hb.find_of_notMem hold hmet
      simp only [hnone] at h
      simp only [hnone'] at h'
      obtain ⟨⟨ts₁, w₁⟩, h1, hts⟩ := Fallible.map_eq_ok.mp h
      obtain ⟨⟨us₁, f₁⟩, h1', hus⟩ := Fallible.map_eq_ok.mp h'
      cases hts
      cases hus
      have hun : C.unsaved (.shared t a v) (old ++ met) = C.unsaved v (old ++ met) := by
        simp [unsaved, hold, hmet]
      rw [hun]
      refine Compared.behind ?_ _
      rcases ih hin hb (by omega) h1 h1' with ⟨hun, rfl, hb₁⟩ | ⟨hun, hdiv⟩
      · refine Or.inl ⟨hun, rfl, ?_⟩
        rw [pointers, ← List.append_assoc]
        exact hb₁.save hold _
      · exact Or.inr ⟨hun, hdiv⟩
  | string str =>
    intro _ met w f hb _ ts w' us f' h h'
    obtain ⟨ts₁, h1, hts⟩ := Fallible.map_eq_ok.mp h
    obtain ⟨us₁, h1', hus⟩ := Fallible.map_eq_ok.mp h'
    rw [h1] at h1'
    cases h1'
    cases hts
    cases hus
    exact Or.inl ⟨rfl, rfl, by simpa only [pointers, List.append_nil] using hb⟩
  | _ =>
    intro _ met w f hb _ ts w' us f' h h'
    cases h
    cases h'
    exact Or.inl ⟨rfl, rfl, by simpa only [pointers, List.append_nil] using hb⟩

/-- The old table cannot show: it is empty, or none of its pointers is written again and no pointer is
met twice. -/
def Unaffected (C : Context) (w : SavedTags) (vs : List Val) : Prop :=
  w.next = 0 ∨ C.unsavedAll vs (w.ptrs.map Prod.fst) = true

end Context

namespace Ombstream

variable {C : Context} {w : SavedTags} {vs : List Val}

theorem Reached.behind (h : Reached C w) : Context.Behind w.next (w.ptrs.map Prod.fst) [] w {} where
  next := rfl
  count := rfl
  later := fun ptr hptr => SavedTags.find_of_notMem hptr
  earlier := by
    intro ptr hptr
    refine ⟨rfl, ?_⟩
    cases hfind : w.find ptr with
    | none =>
      obtain ⟨e, he, rfl⟩ := List.mem_map.mp hptr
      have hne := List.lookup_eq_none_iff.mp hfind e he
      simp at hne
    | some e => exact ⟨e, rfl, h.saved ptr e hfind⟩
  found := fun ptr => by simp [SavedTags.find]
  serial := fun ptr e he => nomatch he

/-- A cleared stream writes what a new one does, if the old table cannot show. -/
theorem Reached.produced_eq (h : Reached C w) (hun : C.Unaffected w vs) {m m' : Obmembuf}
    (hm : m.Contains []) (hm' : m'.Contains []) :
    ∃ r, produced C ⟨m, w⟩ vs = .ok r ∧ produced C ⟨m', {}⟩ vs = .ok r := by
  have hboth : BothContain m m' := ⟨[], hm, hm'⟩
  rcases hun with hzero | hun
  · have hempty : w = {} := h.next.resolve_right (by omega)
    have hpaired : Paired BothContain (fun _ w f => w = f) [] ⟨m, w⟩ ⟨m', {}⟩ := ⟨hboth, hempty⟩
    exact produced_alike (locked_eq C) vs (.inl trivial) hpaired
  · have hT : Locked C False fun saved w f => ∀ ptr ∉ saved, w.find ptr = none ∧ f.find ptr = none :=
      { mono := fun h more ptr hptr => h ptr fun hmem => hptr (List.mem_append_left more hmem)
        find := fun h hptr => by
          obtain ⟨hw, hf⟩ := h _ (hptr.resolve_left id)
          rw [hw, hf]
        save := fun _ h ptr t q hq => by
          rw [List.mem_append, List.mem_singleton, not_or] at hq
          rw [SavedTags.find_save_ne hq.2, SavedTags.find_save_ne hq.2]
          exact h q hq.1 }
    exact produced_alike hT vs (.inr hun) ⟨hboth, fun ptr hptr => ⟨SavedTags.find_of_notMem hptr, rfl⟩⟩

/-- And only then, where every byte says whether it belongs to an object or to a number. -/
theorem Reached.produced_ne (h : Reached C w) (hun : ¬ C.Unaffected w vs) {m m' : Obmembuf}
    (hm : m.Contains []) (hm' : m'.Contains []) {ty : Nat → Ty} {tys : List Ty}
    (hvs : List.Forall₂ (Holds C ty) tys vs)
    (hnum : ∀ v ∈ vs, ∀ x ∈ v.nodes, Context.isNumber x.2 = false)
    (hlt : w.next + (C.pointersAll vs).length < 2 ^ 64) {r r' : List (Except Fault Unit) × List UInt8}
    (hr : produced C ⟨m, w⟩ vs = .ok r) (hr' : produced C ⟨m', {}⟩ vs = .ok r') : r.2 ≠ r'.2 := by
  obtain ⟨hne, hmeet⟩ := not_or.mp hun
  have hd : C.dedupSharedPtrs = true := by
    by_contra hno
    have hempty := h.unused (by simpa using hno)
    subst hempty
    exact hne rfl
  have hall := Context.carriedAll_of_holds hd hvs (fun _ => .null) le_rfl
  obtain ⟨ts, w₁, hput⟩ := hall.writes w
  obtain ⟨us, w₂, hput'⟩ := hall.writes {}
  have hcmp := Context.putAll_compares (fun v _ => Context.put_compares hd (by omega) v) hnum h.behind
    (by simpa using hlt) hput hput'
  rw [List.append_nil] at hcmp
  rcases hcmp with ⟨hfresh, -⟩ | ⟨-, hdiv⟩
  · exact absurd hfresh hmeet
  · have hrun := produced_put vs hput hm
    have hrun' := produced_put vs hput' hm'
    rw [List.nil_append] at hrun hrun'
    obtain rfl := Except.ok.inj (hrun.symm.trans hr)
    obtain rfl := Except.ok.inj (hrun'.symm.trans hr')
    exact hdiv.ne

/-- In every run, a cleared stream produces what a new stream produces if the pointers saved before
cannot show, and a new reader gets it back; and only then, where no pointer points at a bare number
and serial numbers do not overflow. -/
theorem cleared_iff (C : Context) {m₀ m₁ : Obmembuf} (hm₀ : m₀.Built) (hm₁ : m₁.Built)
    (hist : List Call) (vs : List Val) :
    ∃ s s' r r', hist.foldlM (call C) ⟨m₀, {}⟩ = .ok s ∧ clear s = .ok s' ∧
      produced C s' vs = .ok r ∧ produced C ⟨m₁, {}⟩ vs = .ok r' ∧
      (C.Unaffected s.deduper vs → r = r') ∧
      ∀ (ty : Nat → Ty) tys, List.Forall₂ (Holds C ty) tys vs →
        ((∀ v ∈ vs, ∀ x ∈ v.nodes, Context.isNumber x.2 = false) →
          s.deduper.next + (C.pointersAll vs).length < 2 ^ 64 →
          (r.2 = r'.2 ↔ C.Unaffected s.deduper vs)) ∧
        (C.dedupSharedPtrs = true → C.Unaffected s.deduper vs → ∀ heap, (∀ v ∈ vs, v.Coherent heap) →
          C.apartAll vs [] = true → ∀ fuel, Val.depthList vs ≤ fuel → ∃ u,
            Takes (each (tys.map (C.readAs fuel))) {} r.2
              (vs.map (Val.rename fun a => (Val.visitAll vs []).idxOf a)) u) := by
  have hinit : Reached C (Ombstream.mk m₀ {}).deduper := reached_empty C
  obtain ⟨s, hrun, hsound, hreached⟩ := calls_keep hm₀.contains.sound hinit hist
  obtain ⟨m, hclear, hm⟩ := hsound.clear
  obtain ⟨r, hr⟩ := produced_ok (C := C) hm s.deduper vs
  obtain ⟨r', hr'⟩ := produced_ok (C := C) hm₁.contains {} vs
  have hsame : C.Unaffected s.deduper vs → r = r' := by
    intro hun
    obtain ⟨r₁, h₁, h₂⟩ := hreached.produced_eq hun hm hm₁.contains
    exact (Except.ok.inj (hr.symm.trans h₁)).trans (Except.ok.inj (h₂.symm.trans hr'))
  refine ⟨s, ⟨m, s.deduper⟩, r, r', hrun, by rw [clear, hclear]; rfl, hr, hr', hsame, ?_⟩
  intro ty tys hvs
  refine ⟨fun hnum hlt => ⟨?_, fun hun => by rw [hsame hun]⟩, ?_⟩
  · contrapose
    intro hun
    exact hreached.produced_ne hun hm hm₁.contains hvs hnum hlt hr hr'
  · intro hd hun heap hco hapart fuel hf
    have hall := Context.carriedAll_of_holds hd hvs heap hf
    obtain ⟨cs, w, hput⟩ := hall.writes {}
    obtain ⟨u, hreads, -⟩ := hall.reads hco [] {} {} cs w (C.lockstep_init heap ty) hput hapart
    have hbytes := produced_put vs hput hm₁.contains
    obtain rfl := Except.ok.inj (hbytes.symm.trans hr')
    rw [hsame hun]
    exact ⟨u, hreads.takes⟩

open Context

/-- The pointers saved by `hist`, and what the writes `vs` produce after `clear` and on a new stream. -/
def afterClear (C : Context) (hist : List Call) (vs : List Val) :
    Except Failure (List (Nat × Nat) × List UInt8 × List UInt8) := do
  let m ← Obmembuf.ofCapacity (fun _ _ => 0) RefHeap.empty 16 .copyOnWrite
  let s ← hist.foldlM (call C) ⟨m, {}⟩
  let s' ← clear s
  let (_, bs) ← produced C s' vs
  let (_, fresh) ← produced C ⟨m, {}⟩ vs
  pure (s.deduper.ptrs.map Prod.fst, bs, fresh)

/-- A leaf written before the clear does not show if another leaf is written after it. -/
theorem cleared_other :
    ∃ m s s' r r', Obmembuf.ofCapacity (fun _ _ => 0) RefHeap.empty 16 .copyOnWrite = .ok m ∧
      [.write (leaf 0)].foldlM (call starContext) ⟨m, {}⟩ = .ok s ∧ clear s = .ok s' ∧
      produced starContext s' [leaf 1] = .ok r ∧ produced starContext ⟨m, {}⟩ [leaf 1] = .ok r' ∧
      r = r' ∧ r.2 = [0x92, 0x00, 0x90] := by
  obtain ⟨m, -, -, -, hm, -⟩ :=
    Obmembuf.shows_ofCapacity (fun _ _ => 0) RefHeap.WF.empty 16 .copyOnWrite
  have hbuilt : m.Built := .capacity RefHeap.WF.empty hm
  obtain ⟨s, s', r, r', hrun, hclear, hr, hr', hsame, -⟩ :=
    cleared_iff starContext hbuilt hbuilt [.write (leaf 0)] [leaf 1]
  have hafter : (afterClear starContext [.write (leaf 0)] [leaf 1]).toOption =
      some ([(0, 0)], [0x92, 0x00, 0x90], [0x92, 0x00, 0x90]) := by decide +kernel
  simp only [afterClear, hm, ok_bind, hrun, hclear, hr, hr'] at hafter
  obtain ⟨hptrs, hboth⟩ := Prod.mk.inj (Option.some.inj hafter)
  have hun : starContext.Unaffected s.deduper [leaf 1] := by
    rw [Unaffected, hptrs]
    exact Or.inr (by decide)
  exact ⟨m, s, s', r, r', hm, hrun, hclear, hr, hr', hsame hun, (Prod.mk.inj hboth).1⟩

/-- A leaf written before the clear is written after it as the number of an object that the new
buffer does not hold, and a new reader goes wrong on it. -/
theorem cleared_again :
    (afterClear starContext [.write (leaf 0)] [leaf 0]).toOption =
        some ([(0, 0)], [0x92, 0x00, 0x00], [0x92, 0x00, 0x90]) ∧
      faultOf (starContext.readBytes 2 (.sharedPtr (.cls 0)) (fun _ _ => 0) [0x92, 0x00, 0x00]) =
        some .undefined ∧
      faultOf (starContext.readBytes 2 (.sharedPtr (.cls 0)) (fun _ _ => 0) [0x92, 0x00, 0x90]) =
        none := by
  decide +kernel

end Ombstream

end Nodeoze.Bstream
