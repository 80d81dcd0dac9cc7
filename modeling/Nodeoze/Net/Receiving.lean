import Nodeoze.Buffer.Filling
import Nodeoze.Buffer.Mutators
import Nodeoze.Lib.Runs

/-!
# What a TCP socket receives

A `net_tcp_socket` receives into one buffer, whose policy is `no_copy_on_write`: copies share its block, and
nobody's copy is made before the block is written.  For each read libuv calls `on_alloc`, stores what has come at the
address that it is given, and calls `on_recv`, which pushes the buffer; the listeners of `data` get copies.

The copies that a listener does not keep are gone when `push` returns.  Of those that are kept the program
makes further copies, or lets them go; it does not write to them.  The socket is not closed, and libuv's
other callbacks do not touch the buffer.
-/

namespace Nodeoze.Net.Receiving

open RefHeap Splice Runs Buffer

/-- `reading` is the length of the memory that libuv has been given for a read, `kept` are the program's copies. -/
structure State where
  heap : Heap
  reading : Option Nat
  kept : List Nat

/-- `on_recv` gets a positive number (the bytes, of which the listeners keep some copies), zero or an error. -/
inductive Act
  | alloc (hint : Nat)
  | recv (bytes : List UInt8) (copies : Nat)
  | again
  | error
  | copy (i : Nat)
  | release (i : Nat)
  deriving DecidableEq, Repr

/-- `m_recv_buf` -/
def recvBuf : Nat := 0

/-- `net_tcp_socket()` -/
def create : Option State := do
  let H ← setPolicy (construct RefHeap.empty [] .copyOnWrite) recvBuf .noCopyOnWrite
  pure ⟨H, none, []⟩

section

variable (junk : Nat → Nat → UInt8)

/-- `on_alloc`: `capacity( size_hint )` is `size( size_hint )`. -/
def onAlloc (s : State) (hint : Nat) : Option State := do
  let H ← size junk s.heap recvBuf hint
  let H ← mutableData H recvBuf
  pure { s with heap := H, reading := some hint }

/-- libuv stores the bytes, and calls `on_recv` with how many there are, which calls `push( m_recv_buf )`. -/
def onRecv (s : State) (bytes : List UInt8) (copies : Nat) : Option State := do
  let H ← readInto junk s.heap recvBuf bytes copies
  pure ⟨H, none, s.kept ++ List.range' s.heap.slots copies⟩

def step (s : State) : Act → Option State
  | .alloc hint => onAlloc junk s hint
  | .recv bytes copies => onRecv junk s bytes copies
  | .again => some { s with reading := none }
  | .error => do
    let H ← size junk s.heap recvBuf 0
    pure { s with heap := H, reading := none }
  | .copy i => do
    let H ← adopt s.heap i
    pure { s with heap := H, kept := s.kept ++ [s.heap.slots] }
  | .release i => some { s with heap := s.heap.detach i, kept := s.kept.filter (· ≠ i) }

/-- libuv answers each `on_alloc` with one `on_recv`, for no more than it was given; the program has the
copies that it uses. -/
def Enabled (s : State) : Act → Prop
  | .alloc _ => s.reading = none
  | .recv bytes _ => bytes ≠ [] ∧ ∃ hint ∈ s.reading, bytes.length ≤ hint
  | .again => s.reading ≠ none
  | .error => s.reading ≠ none
  | .copy i => i ∈ s.kept
  | .release i => i ∈ s.kept

instance (s : State) : ∀ a, Decidable (Enabled s a)
  | .alloc _ => inferInstanceAs (Decidable (s.reading = none))
  | .recv bytes _ => inferInstanceAs (Decidable (bytes ≠ [] ∧ ∃ hint ∈ s.reading, bytes.length ≤ hint))
  | .again => inferInstanceAs (Decidable (s.reading ≠ none))
  | .error => inferInstanceAs (Decidable (s.reading ≠ none))
  | .copy i => inferInstanceAs (Decidable (i ∈ s.kept))
  | .release i => inferInstanceAs (Decidable (i ∈ s.kept))

def receive (as : List Act) : Option State := create.bind fun s => run (step junk) s as

def Legal (as : List Act) : Prop := ∀ s, create = some s → Meets (step junk) Enabled s as

end

/-- How much memory a read asks for. -/
def Act.hint? : Act → Option Nat
  | .alloc hint => some hint
  | _ => none

/-- What a read stores. -/
def Act.stored? : Act → Option (List UInt8)
  | .recv bytes _ => some bytes
  | _ => none

/-- The most that has been asked for. -/
def capacity (as : List Act) : Nat := (as.filterMap Act.hint?).foldl max 0

/-! ## The receive buffer -/

/-- The buffer shows the first `n` bytes of its block. -/
abbrev Receives (H : Heap) (mem : List UInt8) (gen n : Nat) : Prop := Fronts H recvBuf 0 .noCopyOnWrite mem gen n

/-! ## Runs -/

/-- The copies are on the buffer's block, and libuv has as much of it as it was told. -/
structure Inv (s : State) (mem : List UInt8) (gen : Nat) : Prop where
  recv : ∃ n, Receives s.heap mem gen n ∧ ∀ hint ∈ s.reading, n = hint
  kept : ∀ j ∈ s.kept, j ≠ recvBuf ∧ ∃ h, s.heap.bufs j = some h ∧ h.blk = 0

/-- What acts do to the handles that are there and to the memory: a copy that is not released stays as it is,
and the memory keeps its place until more of it is asked for than there is. -/
structure Follows (as : List Act) (s : State) (mem : List UInt8) (gen : Nat) (t : State) (mem' : List UInt8)
    (gen' : Nat) : Prop where
  slots : s.heap.slots ≤ t.heap.slots
  bufs : ∀ j, j ≠ recvBuf → j < s.heap.slots → Act.release j ∉ as → t.heap.bufs j = s.heap.bufs j
  length : mem'.length = (as.filterMap Act.hint?).foldl max mem.length
  moved : gen' = gen ∧ mem'.length = mem.length ∨ gen < gen' ∧ mem.length < mem'.length
  front : ∀ k ≤ mem.length, mem'.take k = (as.filterMap Act.stored?).foldl overlay (mem.take k)

section

variable {s t u : State} {as bs : List Act} {mem mem' mem'' : List UInt8} {gen gen' gen'' : Nat}

theorem Follows.refl (s : State) (mem : List UInt8) (gen : Nat) : Follows [] s mem gen s mem gen :=
  ⟨Nat.le_refl _, fun _ _ _ _ => rfl, rfl, .inl ⟨rfl, rfl⟩, fun _ _ => rfl⟩

theorem Follows.trans (h : Follows as s mem gen t mem' gen') (h' : Follows bs t mem' gen' u mem'' gen'') :
    Follows (as ++ bs) s mem gen u mem'' gen'' where
  slots := h.slots.trans h'.slots
  bufs j hj hlt hrel := by
    rw [List.mem_append, not_or] at hrel
    exact (h'.bufs j hj (Nat.lt_of_lt_of_le hlt h.slots) hrel.2).trans (h.bufs j hj hlt hrel.1)
  length := by rw [h'.length, h.length, List.filterMap_append, List.foldl_append]
  moved := by
    have := h.moved
    have := h'.moved
    omega
  front k hk := by
    have := h.moved
    rw [h'.front k (by omega), h.front k hk, List.filterMap_append, List.foldl_append]

/-! ## Steps -/

variable (junk : Nat → Nat → UInt8)

/-- What one act does. -/
def Steps (junk : Nat → Nat → UInt8) (s : State) (mem : List UInt8) (gen : Nat) (a : Act) : Prop :=
  ∃ t mem' gen', step junk s a = some t ∧ Inv t mem' gen' ∧ Follows [a] s mem gen t mem' gen'

theorem Inv.alloc (h : Inv s mem gen) (hint : Nat) : Steps junk s mem gen (.alloc hint) := by
  obtain ⟨n, hr, -⟩ := h.recv
  obtain ⟨H, pad, gen', hH, hr', ho, hmoved⟩ := hr.size junk hint
  refine ⟨⟨H, some hint, s.kept⟩, mem ++ pad, gen', ?_, ⟨⟨hint, hr', ?_⟩, ?_⟩, ⟨ho.slots.ge, ?_, ?_, ?_, ?_⟩⟩
  · simp only [step, onAlloc, hH, Option.bind_eq_bind, Option.bind_some, hr'.mutableData]
    rfl
  · exact fun k hk => Option.some.inj hk
  · intro j hj
    obtain ⟨hne, hb⟩ := h.kept j hj
    refine ⟨hne, ?_⟩
    change ∃ h, H.bufs j = some h ∧ _
    rwa [ho.bufs j hne]
  · exact fun j hj _ _ => ho.bufs j hj
  · change (mem ++ pad).length = max mem.length hint
    rw [List.length_append]
    split_ifs at hmoved with hlt
    · omega
    · rw [hmoved.2, List.length_nil]
      omega
  · rw [List.length_append]
    split_ifs at hmoved with hlt
    · omega
    · exact .inl ⟨hmoved.1, by rw [hmoved.2]; rfl⟩
  · intro k hk
    exact List.take_append_of_le_length hk

/-- The copies are those that there were, and new ones. -/
theorem Inv.of_bufs (h : Inv s mem gen) {n : Nat} (hr : Receives t.heap mem' gen' n)
    (hreading : ∀ hint ∈ t.reading, n = hint)
    (hkept : ∀ j ∈ t.kept, j ∈ s.kept ∧ t.heap.bufs j = s.heap.bufs j ∨
      j ≠ recvBuf ∧ ∃ h, t.heap.bufs j = some h ∧ h.blk = 0) : Inv t mem' gen' where
  recv := ⟨n, hr, hreading⟩
  kept j hj := by
    rcases hkept j hj with ⟨hs, hold⟩ | hnew
    · rw [hold]
      exact h.kept j hs
    · exact hnew

theorem Inv.lt_slots (h : Inv s mem gen) {j : Nat} (hj : j ∈ s.kept) : j < s.heap.slots := by
  obtain ⟨n, hr, -⟩ := h.recv
  obtain ⟨-, k, hk, -⟩ := h.kept j hj
  exact hr.wf.lt_slots hk

theorem Inv.onRecv (h : Inv s mem gen) {bytes : List UInt8} (hbytes : bytes ≠ []) {hint : Nat}
    (hreading : hint ∈ s.reading) (hlen : bytes.length ≤ hint) (copies : Nat) :
    ∃ t, onRecv junk s bytes copies = some t ∧ Inv t (splice mem 0 bytes) gen ∧
      t.kept = s.kept ++ List.range' s.heap.slots copies ∧ t.heap.slots = s.heap.slots + copies ∧
      (∀ l ∈ List.range' s.heap.slots copies,
        t.heap.bufs l = some ⟨0, front 0 (splice mem 0 bytes) gen, bytes.length⟩) ∧
      ∀ l, l ≠ recvBuf → l < s.heap.slots → t.heap.bufs l = s.heap.bufs l := by
  obtain ⟨n, hr, hn⟩ := h.recv
  obtain rfl := hn hint hreading
  obtain ⟨H, hH, hr', hslots, hnew, hold⟩ := hr.readInto junk (by decide) hbytes hlen copies
  refine ⟨⟨H, none, s.kept ++ List.range' s.heap.slots copies⟩, ?_, ?_, rfl, hslots, hnew, hold⟩
  · rw [Receiving.onRecv, hH]
    rfl
  · refine h.of_bufs hr' (fun _ hk => nomatch hk) fun j hj => ?_
    rcases List.mem_append.mp hj with hj | hj
    · exact .inl ⟨hj, hold j (h.kept j hj).1 (h.lt_slots hj)⟩
    · refine .inr ⟨?_, _, hnew j hj, rfl⟩
      have := hr.wf.lt_slots hr.buf
      rw [List.mem_range'_1] at hj
      omega

theorem Inv.recvSteps (h : Inv s mem gen) {bytes : List UInt8} (hbytes : bytes ≠ []) {hint : Nat}
    (hreading : hint ∈ s.reading) (hlen : bytes.length ≤ hint) (copies : Nat) :
    Steps junk s mem gen (.recv bytes copies) := by
  obtain ⟨t, ht, hinv, -, hslots, -, hold⟩ := h.onRecv junk hbytes hreading hlen copies
  obtain ⟨n, hr, hn⟩ := h.recv
  have hle := hr.le
  have hlength : (splice mem 0 bytes).length = mem.length := by
    apply length_splice
    rw [← hn hint hreading] at hlen
    omega
  refine ⟨t, _, _, ht, hinv, ⟨by omega, fun j hj hlt _ => hold j hj hlt, ?_, .inl ⟨rfl, hlength⟩, ?_⟩⟩
  · exact hlength
  · exact fun k hk => take_overlay hk

/-- An act that leaves the memory as it is. -/
theorem Inv.keepsMemory (h : Inv s mem gen) {a : Act} (ha : a.hint? = none) (ha' : a.stored? = none)
    (hstep : step junk s a = some t) {n : Nat} (hr : Receives t.heap mem gen n)
    (hreading : ∀ hint ∈ t.reading, n = hint) (hslots : s.heap.slots ≤ t.heap.slots)
    (hold : ∀ j, j ≠ recvBuf → j < s.heap.slots → a ≠ .release j → t.heap.bufs j = s.heap.bufs j)
    (hkept : ∀ j ∈ t.kept, j ∈ s.kept ∧ a ≠ .release j ∨
      j ≠ recvBuf ∧ ∃ h, t.heap.bufs j = some h ∧ h.blk = 0) : Steps junk s mem gen a := by
  refine ⟨t, mem, gen, hstep, h.of_bufs hr hreading fun j hj => ?_, ⟨hslots, ?_, ?_, .inl ⟨rfl, rfl⟩, ?_⟩⟩
  · refine (hkept j hj).imp_left fun ⟨hs, hne⟩ => ⟨hs, ?_⟩
    exact hold j (h.kept j hs).1 (h.lt_slots hs) hne
  · exact fun j hj hlt hrel => hold j hj hlt fun heq => hrel (List.mem_singleton.mpr heq.symm)
  · rw [List.filterMap_cons, ha]
    rfl
  · rw [List.filterMap_cons, ha']
    exact fun _ _ => rfl

theorem Inv.steps (h : Inv s mem gen) {a : Act} (ha : Enabled s a) : Steps junk s mem gen a := by
  obtain ⟨n, hr, hn⟩ := h.recv
  cases a with
  | alloc hint => exact h.alloc junk hint
  | recv bytes copies =>
    obtain ⟨hbytes, hint, hreading, hlen⟩ := ha
    exact h.recvSteps junk hbytes hreading hlen copies
  | again =>
    exact h.keepsMemory junk (t := { s with reading := none }) rfl rfl rfl hr (fun _ hk => nomatch hk)
      (Nat.le_refl _) (fun _ _ _ _ => rfl) fun j hj => .inl ⟨hj, fun heq => nomatch heq⟩
  | error =>
    obtain ⟨hr', ho⟩ := hr.resize (Nat.zero_le mem.length)
    refine h.keepsMemory junk (t := ⟨_, none, s.kept⟩) rfl rfl ?_ hr' (fun _ hk => nomatch hk) ho.slots.ge
      (fun j hj _ _ => ho.bufs j hj) fun j hj => .inl ⟨hj, fun heq => nomatch heq⟩
    rw [step, hr.size_of_le junk (Nat.zero_le n)]
    rfl
  | copy i =>
    obtain ⟨hne, k, hk, hblk⟩ := h.kept i ha
    obtain ⟨H, hH, hr', hslots, hnew, hold⟩ := hr.adopt (by decide) hk hblk
    have hlt := hr.wf.lt_slots hr.buf
    refine h.keepsMemory junk (t := ⟨H, s.reading, s.kept ++ [s.heap.slots]⟩) rfl rfl ?_ hr' hn ?_
      (fun j _ hlt _ => hold j (by omega)) fun j hj => ?_
    · rw [step, hH]
      rfl
    · change s.heap.slots ≤ H.slots
      omega
    · rcases List.mem_append.mp hj with hj | hj
      · exact .inl ⟨hj, fun heq => nomatch heq⟩
      · obtain rfl := List.mem_singleton.mp hj
        exact .inr ⟨by omega, k, hnew, hblk⟩
  | release i =>
    obtain ⟨hne, k, hk, -⟩ := h.kept i ha
    obtain ⟨hr', hslots, hold⟩ := hr.detach hk hne
    refine h.keepsMemory junk (t := ⟨_, s.reading, s.kept.filter (· ≠ i)⟩) rfl rfl rfl hr' hn hslots.ge
      (fun j _ _ hrel => hold j ?_) fun j hj => ?_
    · rintro rfl
      exact hrel rfl
    · obtain ⟨hs, hji⟩ := List.mem_filter.mp hj
      refine .inl ⟨hs, fun heq => ?_⟩
      obtain rfl := Act.release.inj heq
      simp at hji

/-- libuv's promise is kept along a run, and the run does what its acts do. -/
theorem Inv.run (h : Inv s mem gen) (hlegal : Meets (step junk) Enabled s as) :
    ∃ t mem' gen', Runs.run (step junk) s as = some t ∧ Inv t mem' gen' ∧ Follows as s mem gen t mem' gen' := by
  induction as generalizing s mem gen with
  | nil => exact ⟨s, mem, gen, rfl, h, Follows.refl s mem gen⟩
  | cons a as ih =>
    obtain ⟨ha, has⟩ := hlegal
    obtain ⟨t, mem', gen', ht, hinv, hfollows⟩ := h.steps junk ha
    obtain ⟨u, mem'', gen'', hu, hinv', hfollows'⟩ := ih hinv (has t ht)
    refine ⟨u, mem'', gen'', ?_, hinv', hfollows.trans hfollows'⟩
    rw [Runs.run, ht]
    exact hu

/-- The buffer of a new socket has no memory. -/
theorem create_eq : ∃ s, create = some s ∧ Inv s [] 0 := by
  have hwf : (RefHeap.empty.push.attach recvBuf [] .noCopyOnWrite : Heap).WF fun _ => False :=
    WF.empty.push.attach Nat.one_pos rfl [] _
  refine ⟨⟨RefHeap.empty.push.attach recvBuf [] .noCopyOnWrite, none, []⟩, ?_, ⟨0, ⟨hwf, ?_, ⟨1, ?_⟩, ?_⟩, ?_⟩, ?_⟩
  · have hset : setPolicy (construct RefHeap.empty [] .copyOnWrite) recvBuf .noCopyOnWrite
        = some (RefHeap.empty.push.attach recvBuf [] .noCopyOnWrite) := by
      simp [setPolicy, isPolicy, forceUnique, isUnique, construct, attach, RefHeap.empty, RefHeap.setBuf,
        RefHeap.setBlk, recvBuf]
      rfl
    rw [create, hset]
    rfl
  · exact attach_bufs [] _
  · exact attach_blks [] _
  · exact Nat.le_refl _
  · intro _ hk
    cases hk
  · intro j hj
    cases hj

theorem lt_foldl_max {ns : List Nat} {k m : Nat} : k < ns.foldl max m ↔ k < m ∨ ∃ n ∈ ns, k < n := by
  induction ns generalizing m with
  | nil => simp
  | cons n ns ih => rw [List.foldl_cons, ih, List.exists_mem_cons_iff, lt_max_iff, or_assoc]

end

/-- A copy of what was received is what each later read leaves of it: the read is stored over it.  Once libuv asks
for more memory than ever before, the copies that are left point into memory that is freed. -/
theorem received_overwritten (junk : Nat → Nat → UInt8) {before after : List Act} {bytes : List UInt8} {copies : Nat}
    (hlegal : Legal junk (before ++ .recv bytes copies :: after)) :
    ∃ s t u, receive junk before = some s ∧ onRecv junk s bytes copies = some t ∧
      run (step junk) t after = some u ∧ t.kept = s.kept ++ List.range' s.heap.slots copies ∧
      ∀ i ∈ List.range' s.heap.slots copies, Act.release i ∉ after →
        u.heap.content i = if ∃ hint ∈ after.filterMap Act.hint?, capacity before < hint then none
          else some ((after.filterMap Act.stored?).foldl overlay bytes) := by
  obtain ⟨s₀, hcreate, hinit⟩ := create_eq
  obtain ⟨hbefore, hrest⟩ := meets_append (hlegal s₀ hcreate)
  obtain ⟨s, mem, gen, hs, hinv, hfollows⟩ := hinit.run junk hbefore
  obtain ⟨⟨hbytes, hint, hreading, hlen⟩, hafter⟩ := hrest s hs
  obtain ⟨t, ht, hinv', hkept, hslots, hnew, -⟩ := hinv.onRecv junk hbytes hreading hlen copies
  obtain ⟨u, mem', gen', hu, ⟨⟨n, hr, -⟩, -⟩, hfollows'⟩ := hinv'.run junk (hafter t ht)
  refine ⟨s, t, u, ?_, ht, hu, hkept, fun i hi hrel => ?_⟩
  · rw [receive, hcreate]
    exact hs
  have hpos := List.length_pos_iff.mpr hbytes
  have hlength : (splice mem 0 bytes).length = capacity before := by
    obtain ⟨m, hr', hm⟩ := hinv.recv
    have hle := hr'.le
    rw [← hm hint hreading] at hlen
    rw [length_splice _ _ _ (by omega)]
    exact hfollows.length
  have hmoved : (∃ hint ∈ after.filterMap Act.hint?, capacity before < hint) ↔ capacity before < mem'.length := by
    rw [hfollows'.length, hlength, lt_foldl_max, or_iff_right (Nat.lt_irrefl _)]
  have hbuf : u.heap.bufs i = some ⟨0, front 0 (splice mem 0 bytes) gen, bytes.length⟩ := by
    have hslot := hr.wf.lt_slots hr.buf
    rw [List.mem_range'_1] at hi
    rw [hfollows'.bufs i ?_ (by omega) hrel]
    · exact hnew i (List.mem_range'_1.mpr hi)
    · obtain ⟨m, hr', -⟩ := hinv.recv
      have := hr'.wf.lt_slots hr'.buf
      omega
  have hle : bytes.length ≤ (splice mem 0 bytes).length := by
    rw [splice, List.take_zero, List.nil_append, List.length_append]
    omega
  rw [hr.content (List.ne_nil_of_length_pos (by omega)) hpos hbuf]
  rcases hfollows'.moved with ⟨hgen, hmem⟩ | ⟨hgen, hmem⟩
  · rw [if_pos ⟨hgen.symm, by omega⟩, if_neg (by rw [hmoved]; omega), hfollows'.front _ hle, splice_zero_take]
  · rw [if_neg (by omega), if_pos (by rw [hmoved]; omega)]

/-- Of three bytes that are kept the next read replaces the first. -/
theorem oneByteMore_overwritten :
    ∃ s t u i, receive (fun _ _ => 0) [.alloc 4] = some s ∧ onRecv (fun _ _ => 0) s [1, 2, 3] 1 = some t ∧
      run (step fun _ _ => 0) t [.alloc 4, .recv [9] 0] = some u ∧ i ∈ t.kept ∧ u.heap.content i = some [9, 2, 3] := by
  have hlegal : Legal (fun _ _ => 0) ([.alloc 4] ++ .recv [1, 2, 3] 1 :: [.alloc 4, .recv [9] 0]) := by
    intro s hs
    rw [← Option.some.inj hs]
    decide
  obtain ⟨s, t, u, hs, ht, hu, hkept, hshows⟩ := received_overwritten (fun _ _ => 0) hlegal
  refine ⟨s, t, u, s.heap.slots, hs, ht, hu, ?_, ?_⟩
  · rw [hkept]
    simp
  · rw [hshows s.heap.slots (by simp) (by simp)]
    decide

end Nodeoze.Net.Receiving
