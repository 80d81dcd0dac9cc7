import Nodeoze.Bstream.FileRefines

/-!
# A file in append mode

In append mode the kernel writes at the end of the file, wherever the descriptor is; the buffer goes on
to count from where the last seek went.  The two agree as long as bytes are only put where the position
is the end.  `Appending` is that state: the window belongs behind the file, and the high watermark is
no less than the size of the file.
-/

namespace Nodeoze.Bstream.Obfilebuf

open Splice Posix Fallible

/-- The bytes of the file that is open. -/
def fileBytes (s : Obfilebuf) : List UInt8 :=
  match s.dev.fd with
  | some f => s.dev.world.disk.inode f.inode
  | none => []

/-- What a call puts. -/
def FileOp.payload : FileOp → List UInt8
  | .put byte => [byte]
  | .putn src => src
  | .filln byte n => List.replicate n byte
  | _ => []

def FileOp.Writes : FileOp → Prop
  | .put _ | .putn _ | .filln _ _ => True
  | _ => False

/-- The file stays open and is not cut. -/
def FileOp.Streams : FileOp → Prop
  | .open_ _ _ | .truncate | .close => False
  | _ => True

def FileOp.Seeks : FileOp → Prop
  | .seek _ _ => True
  | _ => False

instance : (op : FileOp) → Decidable op.Writes
  | .put _ | .putn _ | .filln _ _ => instDecidableTrue
  | .open_ _ _ | .seek _ _ | .tell _ | .flush | .truncate | .close => instDecidableFalse

instance : (op : FileOp) → Decidable op.Streams
  | .open_ _ _ | .truncate | .close => instDecidableFalse
  | .put _ | .putn _ | .filln _ _ | .seek _ _ | .tell _ | .flush => instDecidableTrue

/-- Bytes are put where the position is the end, and an empty block is not put behind it. -/
def PutsAtEnd (s : Obfilebuf) (op : FileOp) : Prop :=
  op.Writes → (s.tell .current).1 ≤ (s.tell .end_).1 ∧
    (op.payload ≠ [] → (s.tell .current).1 = (s.tell .end_).1)

instance (s : Obfilebuf) (op : FileOp) : Decidable (PutsAtEnd s op) :=
  inferInstanceAs (Decidable (_ → _))

def PutsAtEndRun (s : Obfilebuf) : List FileOp → Prop
  | [] => True
  | op :: ops =>
    PutsAtEnd s op ∧
    match step s op with
    | .ok s' => PutsAtEndRun s' ops
    | .error _ => True

instance PutsAtEndRun.decide (s : Obfilebuf) : (ops : List FileOp) → Decidable (PutsAtEndRun s ops)
  | [] => isTrue trivial
  | op :: ops => by
    have hrest : Decidable (match step s op with
        | .ok s' => PutsAtEndRun s' ops
        | .error _ => True) :=
      match step s op with
      | .ok s' => PutsAtEndRun.decide s' ops
      | .error _ => isTrue trivial
    exact instDecidableAnd

/-- The buffer is over the file `i` in append mode, which holds `c` once the window is written. -/
structure Appending (s : Obfilebuf) (i : Nat) (c : List UInt8) : Prop where
  fd : ∃ off, s.dev.fd = some ⟨i, off, true⟩
  content : c = s.dev.world.disk.inode i ++ unwritten s
  base : 0 < s.pnext → s.pbaseOffset = (s.dev.world.disk.inode i).length
  next : s.dirty = false → s.pnext = 0
  low : (s.dev.world.disk.inode i).length ≤ s.highWatermark
  high : s.highWatermark ≤ c.length
  extent : s.dirty = true → s.ppos ≤ c.length
  window : s.pend = s.dev.size
  room : s.pnext ≤ s.pend

section

variable {s s' : Obfilebuf} {i : Nat} {c : List UInt8}

theorem Appending.length (h : Appending s i c) :
    c.length = (s.dev.world.disk.inode i).length + s.pnext := by
  rw [h.content, List.length_append, length_unwritten]

/-- Behind the last byte that was put there is nothing. -/
theorem Appending.pos (h : Appending s i c) (hnext : 0 < s.pnext) : s.ppos = c.length := by
  rw [h.length, Obstreambuf.ppos, h.base hnext]

theorem Appending.fileBytes_eq (h : Appending s i c) : fileBytes s = s.dev.world.disk.inode i := by
  obtain ⟨off, hfd⟩ := h.fd
  rw [fileBytes, hfd]

theorem Appending.flushed (h : Appending s i c) (hnext : s.pnext = 0) : fileBytes s = c := by
  have hnil : unwritten s = [] := by
    rw [← List.length_eq_zero_iff, length_unwritten, hnext]
  rw [h.fileBytes_eq, h.content, hnil, List.append_nil]

theorem Appending.tell_end (h : Appending s i c) : (s.tell .end_).1 = c.length := by
  have hlen := h.length
  have hlow := h.low
  have hhigh := h.high
  by_cases hdirty : s.dirty = true
  · have hmark : (s.tell .end_).1 = max s.highWatermark s.ppos := by rw [s.tell_end_fst, if_pos hdirty]
    have hextent := h.extent hdirty
    rw [hmark]
    by_cases hnext : 0 < s.pnext
    · have hpos := h.pos hnext
      omega
    · omega
  · have hzero := h.next (by simpa using hdirty)
    have hmark : (s.tell .end_).1 = s.highWatermark := by rw [s.tell_end_fst, if_neg hdirty]
    omega

theorem write_append {off n : Nat} (hfd : s.dev.fd = some ⟨i, off, true⟩) (hok : write s n = .ok s') :
    ∃ w off', s' = setFile s w (some ⟨i, off', true⟩) ∧
      w.disk.inode i = s.dev.world.disk.inode i ++ (pad 0 s.dev.data n).take n := by
  have hdesc : descriptor s = .ok ⟨i, off, true⟩ := by rw [descriptor, hfd]
  rw [write, hdesc, ok_bind] at hok
  obtain ⟨⟨w, f⟩, hwrite, hok⟩ := bind_eq_ok.mp hok
  obtain rfl := Except.ok.inj hok
  have hwrite := mapError_eq_ok.mp hwrite
  rcases s.dev.world.write_atEnd ⟨i, off, true⟩ ((pad 0 s.dev.data n).take n) rfl (.inl rfl) with
    herr | ⟨w', f', hdone, -, hbytes, hi, happ, -⟩
  · rw [herr] at hwrite
    cases hwrite
  · obtain ⟨rfl, rfl⟩ := Prod.mk.inj (Except.ok.inj (hdone.symm.trans hwrite))
    obtain ⟨fi, foff, fapp⟩ := f'
    simp only at hi happ hbytes
    subst hi happ
    exact ⟨w', foff, rfl, hbytes⟩

/-- The `lseek` in front of a flush moves the descriptor at most. -/
theorem seekBase_append {off : Nat} (hfd : s.dev.fd = some ⟨i, off, true⟩)
    (hok : seekBase s = .ok s') : ∃ off', s' = setFile s s.dev.world (some ⟨i, off', true⟩) := by
  unfold seekBase at hok
  split_ifs at hok
  · rw [lseek, descriptor, hfd] at hok
    obtain rfl := Except.ok.inj hok
    exact ⟨s.pbaseOffset, rfl⟩
  · obtain rfl := Except.ok.inj hok
    refine ⟨off, ?_⟩
    rw [← hfd]
    rfl

/-- A flush writes the window behind the file, and does not move the position. -/
theorem Appending.flush (h : Appending s i c) (hok : s.flush = .ok s') :
    Appending s' i c ∧ s'.pnext = 0 ∧ s'.ppos = s.ppos ∧ s'.dev.size = s.dev.size := by
  by_cases hdirty : s.dirty = true
  · obtain ⟨off, hfd⟩ := h.fd
    rw [Obstreambuf.flush, if_pos hdirty] at hok
    obtain ⟨s₃, hreally, hok⟩ := bind_eq_ok.mp hok
    obtain ⟨s₁, hseek, hreally⟩ := bind_eq_ok.mp hreally
    obtain ⟨s₂, hwrite, hreally⟩ := bind_eq_ok.mp hreally
    obtain rfl := Except.ok.inj hreally
    obtain ⟨off₁, rfl⟩ := seekBase_append hfd hseek
    obtain ⟨w, off₂, rfl, hbytes⟩ := write_append rfl hwrite
    have hbytes : w.disk.inode i = c := hbytes.trans h.content.symm
    let written : Obfilebuf := { setFile s w (some ⟨i, off₂, true⟩) with
      pbaseOffset := s.ppos, pnext := 0 }
    have hextent := h.extent hdirty
    have hlow := h.low
    have hhigh := h.high
    have hlen := h.length
    have hmax : max s.highWatermark s.ppos = c.length := by
      by_cases hnext : 0 < s.pnext
      · have hpos := h.pos hnext
        omega
      · omega
    have hs' : s' = { written with highWatermark := c.length, lastTouched := s.ppos, dirty := false } := by
      rw [← Except.ok.inj hok]
      show { written.setHighWatermark with
        lastTouched := written.setHighWatermark.ppos, dirty := false } = _
      rw [Obstreambuf.setHighWatermark_of_dirty (s := written) hdirty]
      show { written with highWatermark := max s.highWatermark s.ppos, lastTouched := _, dirty := false } = _
      rw [hmax]
      rfl
    subst hs'
    refine ⟨?_, rfl, rfl, rfl⟩
    exact {
      fd := ⟨off₂, rfl⟩
      content := by
        show c = w.disk.inode i ++ _
        rw [hbytes]
        exact (List.append_nil c).symm
      base := fun hpos => absurd hpos (lt_irrefl 0)
      next := fun _ => rfl
      low := by
        show (w.disk.inode i).length ≤ c.length
        rw [hbytes]
      high := le_rfl
      extent := fun hd => absurd hd Bool.false_ne_true
      window := h.window
      room := Nat.zero_le _ }
  · obtain rfl := Except.ok.inj ((flush_of_clean (by simpa using hdirty)).symm.trans hok)
    exact ⟨h, h.next (by simpa using hdirty), rfl, rfl⟩

/-- `touch` moves the descriptor, which is not where the bytes will go. -/
theorem Appending.prepare (h : Appending s i c) (hok : s.prepare = .ok s') :
    Appending s' i c ∧ s'.ppos = s.ppos ∧ s'.dev.size = s.dev.size := by
  obtain ⟨s₁, hwritable, hok⟩ := bind_eq_ok.mp hok
  have hs₁ : s₁ = { s with writable := true } := by
    unfold Obstreambuf.makeWritable at hwritable
    split_ifs at hwritable with hw
    · obtain rfl := Except.ok.inj hwritable
      rw [← hw]
    · exact (Except.ok.inj hwritable).symm
  subst hs₁
  have h₁ : Appending { s with writable := true } i c :=
    ⟨h.fd, h.content, h.base, h.next, h.low, h.high, h.extent, h.window, h.room⟩
  have hdone : Appending s' i c ∧ s'.ppos = s.ppos ∧ s'.dev.size = s.dev.size := by
    split_ifs at hok with hdirty
    · obtain rfl := Except.ok.inj hok
      exact ⟨h₁, rfl, rfl⟩
    · unfold Obstreambuf.touch at hok
      split_ifs at hok
      · obtain ⟨off, hfd⟩ := h.fd
        have htouch : s' = { setFile { s with writable := true } s.dev.world
            (some ⟨i, s.ppos, true⟩) with lastTouched := s.ppos } := by
          have hrun : reallyTouch { s with writable := true } = .ok s' := hok
          rw [reallyTouch, lseek, descriptor, hfd] at hrun
          exact (Except.ok.inj hrun).symm
        subst htouch
        exact ⟨⟨⟨s.ppos, rfl⟩, h.content, h.base, h.next, h.low, h.high, h.extent, h.window, h.room⟩,
          rfl, rfl⟩
      · obtain rfl := Except.ok.inj hok
        exact ⟨h₁, rfl, rfl⟩
  exact hdone

/-- Bytes that are put at the end belong behind those that were put before. -/
theorem Appending.place (h : Appending s i c) {src : List UInt8} (hroom : src.length ≤ s.pend - s.pnext)
    (hle : s.ppos ≤ c.length) (hend : src ≠ [] → s.ppos = c.length) (hok : s.place src = .ok s') :
    Appending s' i (c ++ src) ∧ s'.ppos = s.ppos + src.length ∧ s'.dev.size = s.dev.size := by
  have h1 := h.room
  have h2 := h.window
  obtain ⟨d, hd⟩ := place_eq (s := s) src (by omega)
  obtain rfl := Except.ok.inj (hd.symm.trans hok)
  have hpos : s.pbaseOffset + (s.pnext + src.length) = s.ppos + src.length :=
    (Nat.add_assoc _ _ _).symm
  refine ⟨?_, hpos, rfl⟩
  exact {
    fd := h.fd
    content := by
      have hmore : unwritten { s with
          dev := { s.dev with data := splice (pad 0 s.dev.data s.pnext) s.pnext src }
          pnext := s.pnext + src.length, dirty := true, dirtyStart := d } = unwritten s ++ src :=
        window_splice s.dev.data src s.pnext
      rw [hmore, h.content, List.append_assoc]
    base := by
      intro hnext
      by_cases hold : 0 < s.pnext
      · exact h.base hold
      · have hsrc : src ≠ [] := by
          rintro rfl
          exact hold hnext
        have hat := hend hsrc
        have hlen := h.length
        show s.pbaseOffset = (s.dev.world.disk.inode i).length
        rw [Obstreambuf.ppos] at hat
        omega
    next := fun hclean => absurd hclean.symm Bool.false_ne_true
    low := h.low
    high := by
      have hhigh := h.high
      rw [List.length_append]
      show s.highWatermark ≤ c.length + src.length
      omega
    extent := by
      intro _
      rw [List.length_append]
      show s.pbaseOffset + (s.pnext + src.length) ≤ c.length + src.length
      omega
    window := h.window
    room := by
      show s.pnext + src.length ≤ s.pend
      omega }

/-- From the end of `c` on, the bytes `bs` have been put. -/
def AppendingFrom (i : Nat) (c : List UInt8) (size : Nat) (s : Obfilebuf) (bs : List UInt8) : Prop :=
  Appending s i (c ++ bs) ∧ s.ppos = (c ++ bs).length ∧ s.dev.size = size

theorem appends_appending (i : Nat) (c : List UInt8) {size : Nat} (hsize : 0 < size) :
    Obstreambuf.Appends (fun _ => True) True (AppendingFrom i c size) where
  prepare := by
    rintro s bs ⟨h, hpos, hdev⟩
    refine .of_value fun s' hok => ?_
    obtain ⟨h', hpos', hdev'⟩ := h.prepare hok
    exact ⟨h', hpos'.trans hpos, hdev'.trans hdev⟩
  overflow := by
    rintro s bs n ⟨h, hpos, hdev⟩
    refine .of_value fun s' hok => ?_
    obtain ⟨s₁, hflush, hok⟩ := bind_eq_ok.mp hok
    obtain rfl := Except.ok.inj hok
    obtain ⟨h', hnext, hpos', hdev'⟩ := h.flush hflush
    refine ⟨⟨h', hpos'.trans hpos, hdev'.trans hdev⟩, ?_⟩
    rw [hnext, h'.window, hdev', hdev]
    exact hsize
  place := by
    rintro s bs src ⟨h, hpos, hdev⟩ hroom -
    refine .of_value fun s' hok => ?_
    obtain ⟨h', hpos', hdev'⟩ := h.place hroom hpos.le (fun _ => hpos) hok
    rw [List.append_assoc] at h'
    refine ⟨h', ?_, hdev'.trans hdev⟩
    rw [hpos', hpos]
    simp only [List.length_append, Nat.add_assoc]

/-! ### A buffer without room -/

theorem size_lseek {off : Nat} (hok : lseek s off = .ok s') : s'.dev.size = s.dev.size := by
  obtain ⟨f, -, hok⟩ := bind_eq_ok.mp hok
  obtain rfl := Except.ok.inj hok
  rfl

theorem size_flush (hok : s.flush = .ok s') : s'.dev.size = s.dev.size := by
  unfold Obstreambuf.flush at hok
  split_ifs at hok
  · obtain ⟨s₃, hreally, hok⟩ := bind_eq_ok.mp hok
    obtain ⟨s₁, hseek, hreally⟩ := bind_eq_ok.mp hreally
    obtain ⟨s₂, hwrite, hreally⟩ := bind_eq_ok.mp hreally
    obtain ⟨f, -, hwrite⟩ := bind_eq_ok.mp hwrite
    obtain ⟨r, -, hwrite⟩ := bind_eq_ok.mp hwrite
    obtain rfl := Except.ok.inj hwrite
    have hbase : s₁.dev.size = s.dev.size := by
      unfold seekBase at hseek
      split_ifs at hseek
      · exact size_lseek hseek
      · obtain rfl := Except.ok.inj hseek
        rfl
    obtain ⟨n, hn⟩ := Obstreambuf.setHighWatermark_exists s₃
    rw [hn] at hok
    obtain rfl := Except.ok.inj hok
    obtain rfl := Except.ok.inj hreally
    exact hbase
  · obtain rfl := Except.ok.inj hok
    rfl

theorem size_prepare (hok : s.prepare = .ok s') : s'.dev.size = s.dev.size := by
  obtain ⟨s₁, hwritable, hok⟩ := bind_eq_ok.mp hok
  have h₁ : s₁.dev.size = s.dev.size := by
    unfold Obstreambuf.makeWritable at hwritable
    split_ifs at hwritable
    · obtain rfl := Except.ok.inj hwritable
      rfl
    · obtain rfl := Except.ok.inj hwritable
      rfl
  split_ifs at hok
  · obtain rfl := Except.ok.inj hok
    exact h₁
  · unfold Obstreambuf.touch at hok
    split_ifs at hok
    · obtain ⟨s₂, hseek, hok⟩ := bind_eq_ok.mp hok
      obtain rfl := Except.ok.inj hok
      exact (size_lseek hseek).trans h₁
    · obtain rfl := Except.ok.inj hok
      exact h₁

theorem place_of_size_zero (h : s.dev.size = 0) {src : List UInt8} (hok : s.place src = .ok s') :
    src = [] ∧ s'.dev.size = 0 := by
  obtain ⟨s₁, hstore, hok⟩ := bind_eq_ok.mp hok
  have hsize : ∀ t : Obfilebuf, t.dev.size = 0 → store t t.pnext src = .ok s₁ →
      src = [] ∧ s₁.dev.size = 0 := by
    intro t ht hstore
    unfold store at hstore
    split_ifs at hstore with hroom
    obtain rfl := Except.ok.inj hstore
    exact ⟨List.length_eq_zero_iff.mp (by omega), ht⟩
  obtain rfl := Except.ok.inj hok
  apply hsize _ _ hstore
  split_ifs
  · exact h
  · exact h

theorem size_overflow {n : Nat} (hok : s.overflow n = .ok s') : s'.dev.size = s.dev.size := by
  obtain ⟨t, hflush, hok⟩ := bind_eq_ok.mp hok
  obtain rfl := Except.ok.inj hok
  exact size_flush hflush

/-- What follows a check for room. -/
theorem room_cases {n : Nat} {k : Obfilebuf → Except Failure Obfilebuf}
    (hok : (if s.pend ≤ s.pnext then s.overflow n >>= k else pure s >>= k) = .ok s') :
    ∃ s₁, s₁.dev.size = s.dev.size ∧ k s₁ = .ok s' := by
  split_ifs at hok
  · obtain ⟨s₁, hover, hok⟩ := bind_eq_ok.mp hok
    exact ⟨s₁, size_overflow hover, hok⟩
  · exact ⟨s, rfl, hok⟩

/-- The loop goes round without putting anything. -/
theorem putChunks_of_size_zero {src : List UInt8} (rounds : Nat) : ∀ {s : Obfilebuf},
    s.dev.size = 0 → Obstreambuf.putChunks rounds s src = .ok s' → src = [] := by
  induction rounds with
  | zero =>
    intro s _ hok
    cases src with
    | nil => rfl
    | cons b src => cases hok
  | succ rounds ih =>
    intro s h hok
    cases src with
    | nil => rfl
    | cons b src =>
      rw [Obstreambuf.putChunks] at hok
      obtain ⟨s₁, hsize, hok⟩ := room_cases hok
      obtain ⟨s₂, hplace, hok⟩ := bind_eq_ok.mp hok
      obtain ⟨hnil, h₂⟩ := place_of_size_zero (hsize.trans h) hplace
      have hchunk : min (b :: src).length (s₁.pend - s₁.pnext) = 0 := by
        have hlen := congrArg List.length hnil
        rw [List.length_take, List.length_nil] at hlen
        omega
      rw [hchunk] at hok
      exact ih h₂ hok

theorem putn_of_size_zero (h : s.dev.size = 0) {src : List UInt8} (hok : s.putn src = .ok s') :
    src = [] := by
  obtain ⟨s₁, hprepare, hok⟩ := bind_eq_ok.mp hok
  have h₁ : s₁.dev.size = 0 := (size_prepare hprepare).trans h
  split_ifs at hok
  · exact (place_of_size_zero h₁ hok).1
  · obtain ⟨s₂, hover, hok⟩ := bind_eq_ok.mp hok
    have h₂ : s₂.dev.size = 0 := (size_overflow hover).trans h₁
    split_ifs at hok
    · exact (place_of_size_zero h₂ hok).1
    · exact putChunks_of_size_zero _ h₂ hok

theorem not_put_of_size_zero (h : s.dev.size = 0) (byte : UInt8) : s.put byte ≠ .ok s' := by
  intro hok
  obtain ⟨s₁, hprepare, hok⟩ := bind_eq_ok.mp hok
  obtain ⟨s₂, hsize, hok⟩ := room_cases hok
  have h₂ : s₂.dev.size = 0 := hsize.trans ((size_prepare hprepare).trans h)
  cases (place_of_size_zero h₂ hok).1

/-! ### Calls and runs -/

theorem Appending.put (h : Appending s i c) {byte : UInt8} (hend : s.ppos = c.length)
    (hok : s.put byte = .ok s') :
    Appending s' i (c ++ [byte]) ∧ s'.ppos = s.ppos + 1 := by
  have hsize : 0 < s.dev.size := by
    by_contra hzero
    exact not_put_of_size_zero (Nat.eq_zero_of_not_pos hzero) byte hok
  have hfrom : AppendingFrom i c s.dev.size s [] := by
    rw [AppendingFrom, List.append_nil]
    exact ⟨h, hend, rfl⟩
  have hends := appends_appending i c hsize
  obtain ⟨h', hpos, -⟩ := (hends.put (hends.prepare hfrom) byte).of_ok hok
  rw [List.nil_append, List.length_append, List.length_singleton] at hpos
  rw [List.nil_append] at h'
  exact ⟨h', by omega⟩

theorem Appending.putn (h : Appending s i c) {src : List UInt8} (hle : s.ppos ≤ c.length)
    (hend : src ≠ [] → s.ppos = c.length) (hok : s.putn src = .ok s') :
    Appending s' i (c ++ src) ∧ s'.ppos = s.ppos + src.length := by
  by_cases hnil : src = []
  · subst hnil
    obtain ⟨s₁, hprepare, hok⟩ := bind_eq_ok.mp hok
    obtain ⟨h₁, hpos, -⟩ := h.prepare hprepare
    rw [List.length_nil, if_pos (Nat.zero_le _)] at hok
    obtain ⟨h', hpos', -⟩ := h₁.place (Nat.zero_le _) (hpos.trans_le hle) (fun hne => absurd rfl hne) hok
    exact ⟨h', by rw [hpos', hpos]⟩
  · have hsize : 0 < s.dev.size := by
      by_contra hzero
      exact hnil (putn_of_size_zero (Nat.eq_zero_of_not_pos hzero) hok)
    have hfrom : AppendingFrom i c s.dev.size s [] := by
      rw [AppendingFrom, List.append_nil]
      exact ⟨h, hend hnil, rfl⟩
    have hends := appends_appending i c hsize
    obtain ⟨h', hpos, -⟩ := (hends.putn (hends.prepare hfrom) fun _ => trivial).of_ok hok
    rw [List.nil_append, List.length_append, ← hend hnil] at hpos
    rw [List.nil_append] at h'
    exact ⟨h', hpos⟩

theorem Appending.seekTo (h : Appending s i c) {where_ : SeekAnchor} {offset : Int} {r : Option Nat}
    (hok : seekTo s where_ offset = .ok (s', r)) : Appending s' i c := by
  obtain ⟨s₁, hflush, hok⟩ := bind_eq_ok.mp hok
  obtain ⟨h₁, hnext, -⟩ := h.flush hflush
  have hclean := clean_of_flush hflush
  simp only at hok
  split_ifs at hok
  · obtain ⟨rfl, -⟩ := Prod.mk.inj (Except.ok.inj hok)
    exact h₁
  · obtain ⟨rfl, -⟩ := Prod.mk.inj (Except.ok.inj hok)
    have hnil : unwritten s₁ = [] := by rw [← List.length_eq_zero_iff, length_unwritten, hnext]
    exact {
      fd := h₁.fd
      content := by
        rw [h₁.content, hnil]
        rfl
      base := fun hpos => absurd hpos (lt_irrefl 0)
      next := fun _ => rfl
      low := h₁.low
      high := h₁.high
      extent := by
        intro hdirty
        rw [show s₁.dirty = true from hdirty] at hclean
        cases hclean
      window := h₁.window
      room := Nat.zero_le _ }

/-- `tell` may raise the high watermark, and moves nothing. -/
theorem Appending.tell (h : Appending s i c) (where_ : SeekAnchor) :
    Appending (s.tell where_).2 i c ∧ (s.tell where_).2.ppos = s.ppos := by
  rcases s.tell_snd where_ with heq | ⟨hdirty, heq⟩
  · rw [heq]
    exact ⟨h, rfl⟩
  · rw [heq]
    have hlow := h.low
    have hhigh := h.high
    have hextent := h.extent hdirty
    refine ⟨?_, rfl⟩
    exact { h with
      low := by
        show (s.dev.world.disk.inode i).length ≤ max s.highWatermark s.ppos
        omega
      high := by
        show max s.highWatermark s.ppos ≤ c.length
        omega }

/-- Every call adds what it puts, and only a seek moves the position otherwise. -/
theorem Appending.step (h : Appending s i c) {op : FileOp} (hop : op.Streams) (hend : PutsAtEnd s op)
    (hok : step s op = .ok s') :
    Appending s' i (c ++ op.payload) ∧ (¬ op.Seeks → s'.ppos = s.ppos + op.payload.length) := by
  have hnothing : ∀ {t : Obfilebuf}, Appending t i c → Appending t i (c ++ []) := by
    intro t ht
    rwa [List.append_nil]
  rw [PutsAtEnd, h.tell_end] at hend
  cases op with
  | open_ path mode => exact absurd hop id
  | truncate => exact absurd hop id
  | close => exact absurd hop id
  | put byte =>
    obtain ⟨h', hpos⟩ := h.put ((hend trivial).2 (List.cons_ne_nil _ _)) hok
    exact ⟨h', fun _ => hpos⟩
  | putn src =>
    obtain ⟨h', hpos⟩ := h.putn (hend trivial).1 (hend trivial).2 hok
    exact ⟨h', fun _ => hpos⟩
  | filln byte n =>
    obtain ⟨h', hpos⟩ := h.putn (hend trivial).1 (hend trivial).2 hok
    exact ⟨h', fun _ => hpos⟩
  | seek where_ offset =>
    obtain ⟨⟨t, r⟩, hseek, hok⟩ := bind_eq_ok.mp hok
    obtain rfl := Except.ok.inj hok
    exact ⟨hnothing (h.seekTo hseek), fun hn => absurd trivial hn⟩
  | tell where_ =>
    obtain rfl := Except.ok.inj hok
    obtain ⟨h', hpos⟩ := h.tell where_
    exact ⟨hnothing h', fun _ => hpos⟩
  | flush =>
    obtain ⟨h', -, hpos, -⟩ := h.flush hok
    exact ⟨hnothing h', fun _ => hpos⟩

end

/-- What a run puts, one call after the other. -/
def payloads (ops : List FileOp) : List UInt8 := ops.flatMap FileOp.payload

section

variable {s s₁ s' : Obfilebuf} {i : Nat} {c : List UInt8} {ops ops₁ ops₂ : List FileOp}

theorem Appending.run (h : Appending s i c) (hops : ∀ op ∈ ops, op.Streams) (hend : PutsAtEndRun s ops)
    (hok : run s ops = .ok s') : Appending s' i (c ++ payloads ops) ∧
      ((∀ op ∈ ops, ¬ op.Seeks) → s'.ppos = s.ppos + (payloads ops).length) := by
  induction ops generalizing s c with
  | nil =>
    obtain rfl := Except.ok.inj hok
    rw [payloads, List.flatMap_nil, List.append_nil]
    exact ⟨h, fun _ => rfl⟩
  | cons op ops ih =>
    obtain ⟨hop, hrest⟩ := List.forall_mem_cons.mp hops
    obtain ⟨s₁, hstep, hok⟩ := bind_eq_ok.mp hok
    obtain ⟨hput, hputs⟩ := hend
    rw [hstep] at hputs
    obtain ⟨h₁, hpos₁⟩ := h.step hop hput hstep
    obtain ⟨h', hpos'⟩ := ih h₁ hrest hputs hok
    rw [payloads, List.flatMap_cons, ← List.append_assoc]
    refine ⟨h', ?_⟩
    intro hseeks
    obtain ⟨hseek, hseeks⟩ := List.forall_mem_cons.mp hseeks
    rw [hpos' hseeks, hpos₁ hseek, List.length_append, payloads]
    omega

theorem run_append : run s (ops₁ ++ ops₂) = run s ops₁ >>= fun s₁ => run s₁ ops₂ := by
  induction ops₁ generalizing s with
  | nil => rfl
  | cons op ops₁ ih =>
    rw [List.cons_append, run, run]
    cases step s op with
    | error e => rfl
    | ok t => exact ih

theorem putsAtEndRun_append (h : PutsAtEndRun s (ops₁ ++ ops₂)) (hok : run s ops₁ = .ok s₁) :
    PutsAtEndRun s ops₁ ∧ PutsAtEndRun s₁ ops₂ := by
  induction ops₁ generalizing s with
  | nil =>
    obtain rfl := Except.ok.inj hok
    exact ⟨trivial, h⟩
  | cons op ops₁ ih =>
    obtain ⟨t, hstep, hok⟩ := bind_eq_ok.mp hok
    obtain ⟨hput, hrest⟩ := h
    rw [hstep] at hrest
    obtain ⟨h₁, h₂⟩ := ih hrest hok
    refine ⟨⟨hput, ?_⟩, h₂⟩
    rw [hstep]
    exact h₁

theorem open_append_flag {w w' : World String} {path : String} {flags : Flags} {f : OpenFile}
    (hok : w.open_ path flags = .ok (w', f)) : f.append = flags.append := by
  unfold World.open_ at hok
  split at hok
  · obtain ⟨-, rfl⟩ := Prod.mk.inj (Except.ok.inj hok)
    rfl
  · split_ifs at hok
    obtain ⟨-, rfl⟩ := Prod.mk.inj (Except.ok.inj hok)
    rfl

/-- Opening a file to append, whatever the buffer was before. -/
theorem appending_open {t : Obfilebuf} {path : String} (hok : open_ t path .append = .ok s) :
    ∃ i, Appending s i (fileBytes s) ∧ s.ppos = (fileBytes s).length := by
  obtain ⟨s₁, -, hok⟩ := bind_eq_ok.mp hok
  obtain ⟨⟨w, f⟩, hopen, hok⟩ := bind_eq_ok.mp hok
  have happ := open_append_flag (mapError_eq_ok.mp hopen)
  obtain ⟨fi, foff, fapp⟩ := f
  obtain rfl : fapp = true := happ
  obtain rfl := Except.ok.inj hok
  refine ⟨fi, ?_, rfl⟩
  exact {
    fd := ⟨_, rfl⟩
    content := (List.append_nil _).symm
    base := fun hpos => absurd hpos (lt_irrefl 0)
    next := fun _ => rfl
    low := le_rfl
    high := le_rfl
    extent := fun hd => absurd hd Bool.false_ne_true
    window := rfl
    room := Nat.zero_le _ }

end

/-- As long as bytes are put at the end, the positions of a flushed buffer are those of the file, and
what is put is found where the position was before. -/
theorem append_positions {t s₀ s s' : Obfilebuf} {path : String} {ops : List FileOp}
    (hopen : open_ t path .append = .ok s₀) (hops : ∀ op ∈ ops, op.Streams)
    (hrun : run s₀ ops = .ok s) (hend : PutsAtEndRun s₀ ops) (hflush : s.flush = .ok s') :
    fileBytes s' = fileBytes s₀ ++ payloads ops ∧
    (s'.tell .end_).1 = (fileBytes s').length ∧
    (∀ ops₁ op ops₂, ops = ops₁ ++ op :: ops₂ → op.payload ≠ [] → (∀ o ∈ ops₂, ¬ o.Seeks) →
      (s'.tell .current).1 = (fileBytes s').length) ∧
    ∀ ops₁ op ops₂ s₁, ops = ops₁ ++ op :: ops₂ → run s₀ ops₁ = .ok s₁ →
      ((fileBytes s').drop (s₁.tell .current).1).take op.payload.length = op.payload := by
  obtain ⟨i, h₀, -⟩ := appending_open hopen
  obtain ⟨h, -⟩ := h₀.run hops hend hrun
  obtain ⟨h', hnext, hpos, -⟩ := h.flush hflush
  have hfile : fileBytes s' = fileBytes s₀ ++ payloads ops := h'.flushed hnext
  -- where bytes are put, the position is the size of the file so far
  have hat : ∀ ops₁ op ops₂ s₁, ops = ops₁ ++ op :: ops₂ → run s₀ ops₁ = .ok s₁ →
      op.payload ≠ [] → Appending s₁ i (fileBytes s₀ ++ payloads ops₁) ∧
        PutsAtEndRun s₁ (op :: ops₂) ∧ s₁.ppos = (fileBytes s₀ ++ payloads ops₁).length := by
    rintro ops₁ op ops₂ s₁ rfl hrun₁ hne
    obtain ⟨hend₁, hput⟩ := putsAtEndRun_append hend hrun₁
    obtain ⟨h₁, -⟩ := h₀.run (fun o ho => hops o (List.mem_append_left _ ho)) hend₁ hrun₁
    have hwrites : op.Writes := by
      cases op <;> trivial
    refine ⟨h₁, hput, ?_⟩
    rw [← h₁.tell_end]
    exact (hput.1 hwrites).2 hne
  refine ⟨hfile, ?_, ?_, ?_⟩
  · rw [h'.tell_end, hfile]
  · rintro ops₁ op ops₂ hsplit hne hseeks
    rw [hsplit, run_append] at hrun
    obtain ⟨s₁, hrun₁, hrun₂⟩ := bind_eq_ok.mp hrun
    obtain ⟨h₁, hput, hpos₁⟩ := hat ops₁ op ops₂ s₁ hsplit hrun₁ hne
    have hnot : ∀ o ∈ op :: ops₂, ¬ o.Seeks := by
      refine List.forall_mem_cons.mpr ⟨?_, hseeks⟩
      cases op <;> first | exact id | exact absurd rfl hne
    have hstreams : ∀ o ∈ op :: ops₂, o.Streams := by
      intro o ho
      exact hops o (hsplit ▸ List.mem_append_right _ ho)
    obtain ⟨-, hmoved⟩ := h₁.run hstreams hput hrun₂
    show s'.ppos = _
    rw [hpos, hmoved hnot, hpos₁, hfile, hsplit, payloads, payloads, payloads, List.flatMap_append]
    simp only [List.length_append, Nat.add_assoc]
  · rintro ops₁ op ops₂ s₁ hsplit hrun₁
    by_cases hne : op.payload = []
    · rw [hne]
      rfl
    · obtain ⟨-, -, hpos₁⟩ := hat ops₁ op ops₂ s₁ hsplit hrun₁ hne
      have hparts : fileBytes s' =
          (fileBytes s₀ ++ payloads ops₁) ++ (op.payload ++ payloads ops₂) := by
        rw [hfile, hsplit, payloads, payloads, payloads, List.flatMap_append, List.flatMap_cons,
          List.append_assoc]
      show ((fileBytes s').drop s₁.ppos).take _ = _
      rw [hparts, hpos₁, List.drop_left, List.take_left]

/-- Two blocks with the position moved away and back between them. -/
def logRun : List FileOp := [.putn [1, 2, 3], .flush, .seek .begin 0, .seek .end_ 0, .filln 7 2]

theorem logRun_positions : ∃ s₀ s s', open_ (create noFiles .append 4) "f" .append = .ok s₀ ∧
    run s₀ logRun = .ok s ∧ s.flush = .ok s' ∧ fileBytes s' = [1, 2, 3, 7, 7] ∧
    (s'.tell .end_).1 = 5 := by
  have hall : ∃ s₀ s s', open_ (create noFiles .append 4) "f" .append = .ok s₀ ∧
      run s₀ logRun = .ok s ∧ s.flush = .ok s' ∧ fileBytes s₀ = [] ∧ PutsAtEndRun s₀ logRun :=
    ⟨_, _, _, rfl, rfl, rfl, rfl, by decide +kernel⟩
  obtain ⟨s₀, s, s', hopen, hrun, hflush, hempty, hputs⟩ := hall
  obtain ⟨hfile, hend, -⟩ := append_positions hopen (by decide) hrun hputs hflush
  rw [hempty] at hfile
  rw [hfile] at hend
  exact ⟨s₀, s, s', hopen, hrun, hflush, hfile, hend⟩

/-- The position goes where the seek says, the bytes go to the end. -/
theorem seek_misplaces : ∃ s₀ s₁ s s', open_ (create noFiles .append 4) "f" .append = .ok s₀ ∧
    run s₀ [.putn [1, 2, 3], .seek .begin 0] = .ok s₁ ∧ step s₁ (.put 4) = .ok s ∧
    s.flush = .ok s' ∧ fileBytes s' = [1, 2, 3, 4] ∧ (s₁.tell .current).1 = 0 ∧
    (s'.tell .current).1 = 1 ∧ (s'.tell .end_).1 = 3 := by
  refine ⟨_, _, _, _, rfl, rfl, rfl, rfl, ?_⟩
  decide

end Nodeoze.Bstream.Obfilebuf
