import Nodeoze.Buffer.Operations

/-!
# The representation invariant over runs

In every run whose operations are allowed, no assertion fails and no access is undefined, and after
each operation every handle meets `invariants()`, every block counts its handles and an exclusive
block has one.  `allows` leaves out what breaks this: a reallocation in `assign` or `append`, one in
`size` under other handles, `detach` of a handle that is alone on its block, accesses out of range,
and a handle that was moved from, except to destroy it or to give it a new value.
-/

namespace Nodeoze.Buffer

open RefHeap Splice

/-- A test of a handle and its block; false of a null handle. -/
def onBlock (H : Heap) (i : Nat) (p : Handle → Block UInt8 Policy → Bool) : Bool :=
  match H.bufs i with
  | none => false
  | some h =>
    match H.blks h.blk with
    | none => false
    | some B => p h B

/-- `nbytes` more fit behind the first `size` in a block that would be written in place. -/
def fits (B : Block UInt8 Policy) (size nbytes : Nat) : Bool :=
  nbytes == 0 || !decide (Writable B) || decide (size + nbytes ≤ B.mem.length)

/-- The operation reaches none of the branches that break the representation. -/
def allows (H : Heap) : Op → Bool
  | .allocate .. | .construct .. | .putEc .. | .destroy _ => true
  | .copyConstruct j | .slice j _ _ _ => (H.bufs j).isSome
  | .copyAssign i j | .moveAssign i j => decide (i < H.slots) && (H.bufs j).isSome
  | .moveConstruct i | .clear i => decide (i < H.slots)
  | .fill i _ | .clone i | .forceUnique i | .setPolicy i _ => (H.bufs i).isSome
  | .assign i data => data.isEmpty || onBlock H i fun _ B => fits B 0 data.length
  | .assignAt i data pos => onBlock H i fun h B => fits B (min pos h.size) data.length
  | .assignBufferAt i j pos => onBlock H i fun h B => fits B (min pos h.size) (sizeOf H j)
  | .append i data => onBlock H i fun h B => fits B h.size data.length
  | .appendBuffer i j => onBlock H i fun h B => fits B h.size (sizeOf H j)
  | .size i n => onBlock H i fun _ B =>
      !decide (Writable B) || decide (B.refs = 1) || decide (n ≤ B.mem.length)
  | .put i index bytes => onBlock H i fun h _ => decide (index + bytes.length ≤ h.size)
  | .putnEc i index bytes => (H.bufs i).isNone || decide (index + bytes.length < sizeLimit)
  | .rotate i to_ from_ end_ =>
      !(decide (to_ < sizeOf H i) && decide (from_ < sizeOf H i) && decide (end_ ≤ sizeOf H i)) ||
        decide (from_ ≤ end_) && decide (to_ + (end_ - from_) ≤ sizeOf H i)
  | .forceUniqueN i n => onBlock H i fun h _ => decide (n ≤ h.size)
  | .detach i => onBlock H i fun _ B => decide (B.refs ≠ 1)

variable {H H' : Heap} {i : Nat} {h : Handle} {B : Block UInt8 Policy}

theorem At.onBlock (a : At H i h B) (p : Handle → Block UInt8 Policy → Bool) :
    onBlock H i p = p h B := by
  simp [Buffer.onBlock, a.buf, a.blk]

theorem Inv.of_isSome (inv : Inv H) (hi : (H.bufs i).isSome = true) : ∃ h B, At H i h B := by
  obtain ⟨h, hh⟩ := Option.isSome_iff_exists.mp hi
  obtain ⟨B, a⟩ := inv.at hh
  exact ⟨h, B, a⟩

theorem Inv.of_onBlock (inv : Inv H) {p : Handle → Block UInt8 Policy → Bool}
    (hp : onBlock H i p = true) : ∃ h B, At H i h B ∧ p h B = true := by
  cases hi : H.bufs i with
  | none => simp [Buffer.onBlock, hi] at hp
  | some h =>
    obtain ⟨B, a⟩ := inv.at hi
    rw [a.onBlock] at hp
    exact ⟨h, B, a, hp⟩

theorem le_of_fits {size n : Nat} (hfits : fits B size n = true) (hn : n ≠ 0) (hw : Writable B) :
    size + n ≤ B.mem.length := by
  simpa [fits, hn, hw] using hfits

/-! ## The assertions hold -/

theorem Inv.invariants (inv : Inv H) (hi : (H.bufs i).isSome = true) : invariants H i = true := by
  obtain ⟨h, B, a⟩ := inv.of_isSome hi
  have hseated : seated h B = true := by
    rcases a.sits.cases with ⟨hd, hsize, hmem⟩ | ⟨off, hd, hle, hmem⟩
    · simp [seated, hd, hsize, hmem]
    · simp [seated, hd, hmem, hle]
  have hsole : ¬ (B.tag = .exclusive ∧ 1 < B.refs) := by
    rintro ⟨htag, hrefs⟩
    have hone := inv.sole _ _ a.blk htag
    omega
  simp only [Buffer.invariants, a.buf, a.blk, hseated, Bool.true_and, Bool.not_eq_true',
    ← Bool.decide_and, decide_eq_false_iff_not]
  exact hsole

theorem Inv.leaves (inv : Inv H) (H' : Heap) (i : Nat) : leaves H H' i = true := by
  unfold Buffer.leaves
  cases hi : H.bufs i with
  | none => rfl
  | some h =>
    obtain ⟨B, a⟩ := inv.at hi
    have hpos := inv.counted _ _ a.blk
    simp [a.blk, hpos]

variable (junk : Nat → Nat → UInt8)

/-- The operation hands no block to another handle and makes none that is changed in place. -/
def isolating : Op → Bool
  | .allocate _ pol | .construct _ pol | .setPolicy _ pol => decide (pol ≠ .noCopyOnWrite)
  | .moveConstruct _ | .moveAssign _ _ => false
  | _ => true

/-- What an operation leaves: the invariant, and for the other handles what they saw before. -/
structure Outcome (H : Heap) (op : Op) (H' : Heap) : Prop where
  inv : Inv H'
  isolated : isolating op = true → Guarded H → Frame (op.target H) H H' ∧ Guarded H'

/-- An operation that is defined and keeps the invariant meets all its assertions. -/
theorem step_of_exec (inv : Inv H) {op : Op} (henter : enters H op = true)
    (hexec : exec junk H op = some H') (hout : Outcome H op H') (hret : returns H' op = true) :
    ∃ H', step junk H op = some H' ∧ Outcome H op H' := by
  refine ⟨H', ?_, hout⟩
  simp [step, henter, hexec, inv.leaves, hret]

/-! ## One operation -/

/-- A change through the operation's own slot that ends with the handle in its block. -/
theorem step_of_does (inv : Inv H) {op : Op} {n : Nat} (henter : enters H op = true)
    (htarget : op.target H = i) (d : Does i H (exec junk H op) n)
    (hret : ∀ H', Inv H' → (H'.bufs i).isSome = true → returns H' op = true) :
    ∃ H', step junk H op = some H' ∧ Outcome H op H' := by
  obtain ⟨H', h', B', hexec, c, a', -⟩ := d
  have inv' := c.inv inv
  have hout : Outcome H op H' := by
    refine ⟨inv', fun _ g => ?_⟩
    rw [htarget]
    exact c.frame inv g
  exact step_of_exec junk inv henter hexec hout (hret H' inv' (by simp [a'.buf]))

theorem step_of_makes (inv : Inv H) {op : Op} (henter : enters H op = true)
    (htarget : op.target H = H.slots) (m : Makes H (exec junk H op))
    (hret : ∀ H', Inv H' → H'.slots = H.slots + 1 → (H'.bufs H.slots).isSome = true →
      (∀ j, j ≠ H.slots → H'.bufs j = H.bufs j) → returns H' op = true) :
    ∃ H', step junk H op = some H' ∧ Outcome H op H' := by
  obtain ⟨H', h', B', hexec, c, a'⟩ := m
  have inv' := c.inv inv.push
  have hout : Outcome H op H' := by
    refine ⟨inv', fun _ g => ?_⟩
    obtain ⟨hf, g'⟩ := c.frame inv.push g
    rw [htarget]
    exact ⟨(frame_push _ H).trans hf, g'⟩
  refine step_of_exec junk inv henter hexec hout (hret H' inv' c.slots (by simp [a'.buf]) ?_)
  intro j hj
  exact c.bufs_ne hj

/-- A constructor puts its handle on a new block. -/
theorem outcome_new (inv : Inv H) {op : Op} (htarget : op.target H = H.slots) (bytes : List UInt8)
    {pol : Policy} (hpol : isolating op = true → guarded pol) :
    Outcome H op (H.push.attach H.slots bytes pol) := by
  refine ⟨inv.push.attach (Nat.lt_succ_self _) (inv.wf.absent _ le_rfl) bytes pol, ?_⟩
  intro hiso g
  have g' : Guarded H.push := g
  rw [htarget]
  exact ⟨(frame_push _ H).trans (inv.push.wf.frame_attach bytes pol), g'.attach bytes (hpol hiso)⟩

/-- An operation that finds nothing to do. -/
theorem step_of_refl (inv : Inv H) {op : Op} (henter : enters H op = true)
    (hexec : exec junk H op = some H) (hret : returns H op = true) :
    ∃ H', step junk H op = some H' ∧ Outcome H op H' :=
  step_of_exec junk inv henter hexec ⟨inv, fun _ g => ⟨Frame.refl _ H, g⟩⟩ hret

theorem outcome_retag (inv : Inv H) (a : At H i h B) (hone : B.refs = 1) {pol : Policy} :
    Inv (H.setBlk h.blk (some { B with tag := pol })) ∧
      (Guarded H → guarded pol → Frame i H (H.setBlk h.blk (some { B with tag := pol })) ∧
        Guarded (H.setBlk h.blk (some { B with tag := pol }))) := by
  refine ⟨inv.retag a hone pol, fun g hpol => ⟨inv.wf.frame_setBlk a.buf a.blk hone _, ?_⟩⟩
  exact g.setBlk hpol

/-- The cut that `assign( data, pos, length )` begins with. -/
theorem At.cut (a : At H i h B) (pos : Nat) :
    Change i H (Buffer.setSize H i (min pos (Buffer.sizeOf H i))) ∧
      At (Buffer.setSize H i (min pos (Buffer.sizeOf H i))) i { h with size := min pos h.size } B := by
  rw [a.sizeOf]
  exact a.setSize (Nat.min_le_right _ _)

theorem ready_bytes (data : List UInt8) : (Source.bytes data).Ready H := trivial

theorem ready_handle (inv : Inv H) (j : Nat) : (Source.range (dataOf H j) (sizeOf H j)).Ready H := by
  cases hj : H.bufs j with
  | none => simp [dataOf, sizeOf, hj, Source.Ready]
  | some k =>
    obtain ⟨C, a⟩ := inv.at hj
    rw [a.dataOf, a.sizeOf]
    exact a.ready

theorem present_nbytes {src : Source} (hp : src.present = true) : src.nbytes ≠ 0 := by
  cases src with
  | bytes data =>
    cases data with
    | nil => cases hp
    | cons _ _ => simp [Source.nbytes]
  | range data n =>
    simp only [Source.present, Bool.and_eq_true, decide_eq_true_eq] at hp
    exact Nat.ne_of_gt hp.2

theorem does_append_of_fits (a : At H i h B) {src : Source} (r : src.Ready H)
    (hfits : fits B h.size src.nbytes = true) : ∃ n, Does i H (append junk H i src) n :=
  a.does_append junk r fun hp hw => le_of_fits hfits (present_nbytes hp) hw

/-- `assign( data, pos, length )` is a cut and an append. -/
theorem does_assignAt_of_fits (a : At H i h B) {src : Source} (r : src.Ready H)
    {pos : Nat} (hfits : fits B (min pos h.size) src.nbytes = true) :
    ∃ n, Does i H (assignAt junk H i src pos) n := by
  obtain ⟨c, a'⟩ := a.cut pos
  have hshape : Shape H (Buffer.setSize H i (min pos (sizeOf H i))) := by
    intro b C hC
    refine ⟨C, ?_, rfl, rfl⟩
    simp only [Buffer.setSize, a.buf]
    exact hC
  obtain ⟨n, d⟩ := does_append_of_fits junk a' (r.shape hshape) hfits
  exact ⟨n, d.then c⟩

theorem enters_cut (inv : Inv H) (a : At H i h B) (pos : Nat) :
    invariants (Buffer.setSize H i (min pos (sizeOf H i))) i = true := by
  obtain ⟨c, a'⟩ := a.cut pos
  exact (c.inv inv).invariants (by simp [a'.buf])

/-- An allowed operation is defined, meets its assertions and keeps the invariant. -/
theorem Inv.step (inv : Inv H) {op : Op} (hallow : allows H op = true) :
    ∃ H', step junk H op = some H' ∧ Outcome H op H' := by
  have hnone : H.bufs H.slots = none := inv.wf.absent _ le_rfl
  cases op with
  | allocate n pol =>
    refine step_of_exec junk inv rfl rfl (outcome_new inv rfl _ ?_) rfl
    intro hiso
    simpa [isolating, guarded] using hiso
  | construct data pol =>
    refine step_of_exec junk inv rfl rfl (outcome_new inv rfl data ?_) rfl
    intro hiso
    simpa [isolating, guarded] using hiso
  | copyConstruct j =>
    obtain ⟨k, C, a⟩ := inv.of_isSome hallow
    exact step_of_makes junk inv rfl rfl (a.makes_adopt hnone) fun _ _ _ _ _ => rfl
  | moveConstruct j =>
    have hj : H.slots ≠ j := Nat.ne_of_gt (by simpa [allows] using hallow)
    have inv' := inv.push.take (Nat.lt_succ_self _) hnone hj
    refine step_of_exec junk inv rfl rfl ⟨inv', ?_⟩ rfl
    intro hiso
    cases hiso
  | slice j offset len forceCopy =>
    obtain ⟨k, C, a⟩ := inv.of_isSome hallow
    refine step_of_makes junk inv (inv.invariants hallow) rfl (a.makes_slice hnone offset len forceCopy)
      ?_
    intro H' inv' hslots hnew hold
    have hj : j ≠ H.slots := Nat.ne_of_lt a.slot
    have hsrc : (H'.bufs j).isSome = true := by
      rw [hold j hj]
      exact hallow
    simp only [returns, hslots, Nat.add_sub_cancel, inv'.invariants hsrc, inv'.invariants hnew,
      Bool.and_self]
  | copyAssign i j =>
    simp only [allows, Bool.and_eq_true, decide_eq_true_eq] at hallow
    obtain ⟨k, hk⟩ := Option.isSome_iff_exists.mp hallow.2
    obtain ⟨n, d⟩ := does_copyAssign inv hallow.1 hk
    exact step_of_does junk inv rfl rfl d fun H' inv' hi => inv'.invariants hi
  | moveAssign i j =>
    simp only [allows, Bool.and_eq_true, decide_eq_true_eq] at hallow
    by_cases hij : i = j
    · subst hij
      exact step_of_refl junk inv rfl (by simp [exec, moveAssign]) (inv.invariants hallow.2)
    · obtain ⟨-, inv', hempty, hslot, hbufs⟩ := unshare_cases inv hallow.1
      have inv'' := inv'.take hslot hempty hij
      have hexec : exec junk H (.moveAssign i j) = some (Buffer.take (unshare H i) i j) := by
        simp [exec, moveAssign, hij]
      have hsrc : ((Buffer.take (unshare H i) i j).bufs i).isSome = true := by
        rw [Buffer.take, setBuf_bufs_ne _ _ hij, setBuf_bufs_self, hbufs j (Ne.symm hij)]
        exact hallow.2
      refine step_of_exec junk inv rfl hexec ⟨inv'', ?_⟩ (inv''.invariants hsrc)
      intro hiso
      cases hiso
  | assign i data =>
    by_cases hdata : data = []
    · cases hi : H.bufs i with
      | none =>
        exact step_of_refl junk inv rfl (by simp [exec, Buffer.assign, hdata, setSize, hi]) rfl
      | some h =>
        obtain ⟨B, a⟩ := inv.at hi
        exact step_of_does junk inv rfl rfl (a.does_assign junk fun hne => absurd hdata hne)
          fun _ _ _ => rfl
    · have hfits : onBlock H i (fun _ B => fits B 0 data.length) = true := by
        simpa [allows, hdata] using hallow
      obtain ⟨h, B, a, hfits⟩ := inv.of_onBlock hfits
      have hroom : data ≠ [] → Writable B → data.length ≤ B.mem.length := by
        intro hne hw
        have hle := le_of_fits hfits (by simpa using hne) hw
        omega
      exact step_of_does junk inv rfl rfl (a.does_assign junk hroom) fun _ _ _ => rfl
  | assignAt i data pos =>
    obtain ⟨h, B, a, hfits⟩ := inv.of_onBlock hallow
    obtain ⟨n, d⟩ := does_assignAt_of_fits junk a (ready_bytes data) hfits
    exact step_of_does junk inv (enters_cut inv a pos) rfl d fun H' inv' hi => inv'.invariants hi
  | assignBufferAt i j pos =>
    obtain ⟨h, B, a, hfits⟩ := inv.of_onBlock hallow
    obtain ⟨n, d⟩ := does_assignAt_of_fits junk a (ready_handle inv j) hfits
    exact step_of_does junk inv (enters_cut inv a pos) rfl d fun H' inv' hi => inv'.invariants hi
  | append i data =>
    obtain ⟨h, B, a, hfits⟩ := inv.of_onBlock hallow
    obtain ⟨n, d⟩ := does_append_of_fits junk a (ready_bytes data) hfits
    exact step_of_does junk inv (inv.invariants (by simp [a.buf])) rfl d
      fun H' inv' hi => inv'.invariants hi
  | appendBuffer i j =>
    obtain ⟨h, B, a, hfits⟩ := inv.of_onBlock hallow
    obtain ⟨n, d⟩ := does_append_of_fits junk a (ready_handle inv j) hfits
    exact step_of_does junk inv (inv.invariants (by simp [a.buf])) rfl d
      fun H' inv' hi => inv'.invariants hi
  | fill i value =>
    obtain ⟨h, B, a⟩ := inv.of_isSome hallow
    exact step_of_does junk inv (inv.invariants hallow) rfl (a.does_fill value) fun _ _ _ => rfl
  | size i n =>
    obtain ⟨h, B, a, hfits⟩ := inv.of_onBlock hallow
    have hroom : Writable B → B.refs = 1 ∨ n ≤ B.mem.length := by
      intro hw
      simpa [hw] using hfits
    exact step_of_does junk inv (inv.invariants (by simp [a.buf])) rfl (a.does_size junk hroom)
      fun H' inv' hi => inv'.invariants hi
  | put i index bytes =>
    obtain ⟨h, B, a, hin⟩ := inv.of_onBlock hallow
    exact step_of_does junk inv rfl rfl (a.does_put (by simpa using hin)) fun _ _ _ => rfl
  | putEc i index value =>
    cases hi : H.bufs i with
    | none => exact step_of_refl junk inv rfl (by simp [exec, putEc, dataOf, hi]) rfl
    | some h =>
      obtain ⟨B, a⟩ := inv.at hi
      exact step_of_does junk inv rfl rfl (a.does_putEc index value) fun _ _ _ => rfl
  | putnEc i index bytes =>
    cases hi : H.bufs i with
    | none => exact step_of_refl junk inv rfl (by simp [exec, putnEc, dataOf, hi]) rfl
    | some h =>
      obtain ⟨B, a⟩ := inv.at hi
      have hlimit : index + bytes.length < sizeLimit := by simpa [allows, hi] using hallow
      exact step_of_does junk inv rfl rfl (a.does_putnEc hlimit) fun _ _ _ => rfl
  | rotate i to_ from_ end_ =>
    cases hi : H.bufs i with
    | none => exact step_of_refl junk inv rfl (by simp [exec, rotate, sizeOf, hi]) rfl
    | some h =>
      obtain ⟨B, a⟩ := inv.at hi
      have hroom : to_ < h.size → from_ < h.size → end_ ≤ h.size →
          from_ ≤ end_ ∧ to_ + (end_ - from_) ≤ h.size := by
        intro hto hfrom hend
        simpa [allows, a.sizeOf, hto, hfrom, hend] using hallow
      exact step_of_does junk inv rfl rfl (a.does_rotate hroom) fun _ _ _ => rfl
  | clear i =>
    have hslot : i < H.slots := by simpa [allows] using hallow
    exact step_of_does junk inv rfl rfl (does_clear inv hslot) fun _ _ _ => rfl
  | clone i =>
    obtain ⟨h, B, a⟩ := inv.of_isSome hallow
    exact step_of_does junk inv rfl rfl a.does_clone fun _ _ _ => rfl
  | forceUnique i =>
    obtain ⟨h, B, a⟩ := inv.of_isSome hallow
    exact step_of_does junk inv rfl rfl a.does_forceUnique fun _ _ _ => rfl
  | forceUniqueN i n =>
    obtain ⟨h, B, a, hin⟩ := inv.of_onBlock hallow
    have hle : n ≤ h.size := by simpa using hin
    exact step_of_does junk inv (by simp [enters, a.sizeOf, hle]) rfl (a.does_forceUniqueN junk hle)
      fun _ _ _ => rfl
  | setPolicy i pol =>
    obtain ⟨h, B, a⟩ := inv.of_isSome hallow
    obtain ⟨H', hexec, heq | ⟨H₁, h₁, B₁, c, a₁, hone, heq⟩⟩ := a.setPolicy pol
    · subst heq
      exact step_of_refl junk inv rfl hexec rfl
    · subst heq
      obtain ⟨inv', hframe⟩ := outcome_retag (c.inv inv) a₁ hone
      refine step_of_exec junk inv rfl hexec ⟨inv', fun hiso g => ?_⟩ rfl
      obtain ⟨hf, g₁⟩ := c.frame inv g
      obtain ⟨hf', g'⟩ := hframe g₁ (by simpa [isolating, guarded] using hiso)
      exact ⟨hf.trans hf', g'⟩
  | detach i =>
    obtain ⟨h, B, a, hshared⟩ := inv.of_onBlock hallow
    have hne : B.refs ≠ 1 := by simpa using hshared
    exact step_of_refl junk inv rfl (by simp [exec, Buffer.detach, a.buf, a.blk, hne]) rfl
  | destroy i =>
    by_cases hi : i < H.slots
    · obtain ⟨c, inv', -⟩ := unshare_cases inv hi
      exact step_of_exec junk inv rfl rfl ⟨inv', fun _ g => c.frame inv g⟩ rfl
    · have hself : unshare H i = H := by
        unfold unshare RefHeap.detach
        rw [inv.wf.absent i (by omega)]
      exact step_of_refl junk inv rfl (by simp [exec, hself]) rfl

/-! ## Runs -/

/-- Every operation of the run is allowed in the heap it is applied to. -/
def allowsRun (H : Heap) : List Op → Bool
  | [] => true
  | op :: ops => allows H op &&
    match step junk H op with
    | none => true
    | some H' => allowsRun H' ops

theorem allows_of_run {op : Op} {ops : List Op} (h : allowsRun junk H (op :: ops) = true) :
    allows H op = true ∧ ∀ H', step junk H op = some H' → allowsRun junk H' ops = true := by
  simp only [allowsRun, Bool.and_eq_true] at h
  refine ⟨h.1, ?_⟩
  intro H' hstep
  have hrest := h.2
  rw [hstep] at hrest
  exact hrest

theorem Inv.run (inv : Inv H) {ops : List Op} (hallow : allowsRun junk H ops = true) (n : Nat) :
    ∃ H', run junk H (ops.take n) = some H' ∧ Inv H' := by
  induction ops generalizing H n with
  | nil => exact ⟨H, by simp [Buffer.run], inv⟩
  | cons op ops ih =>
    cases n with
    | zero => exact ⟨H, rfl, inv⟩
    | succ n =>
      obtain ⟨hop, hrest⟩ := allows_of_run junk hallow
      obtain ⟨H₁, hstep, hout⟩ := inv.step junk hop
      obtain ⟨H', hrun, inv'⟩ := ih hout.inv (hrest H₁ hstep) n
      exact ⟨H', by simp [Buffer.run, hstep, hrun], inv'⟩

/-- Every handle meets `invariants()`, every block counts its handles, and an exclusive block has
exactly one. -/
structure Represents (H : Heap) : Prop where
  handles : ∀ i h, H.bufs i = some h → invariants H i = true
  counted : ∀ b B, H.blks b = some B → B.refs = H.count b
  exclusive : ∀ b B, H.blks b = some B → B.tag = .exclusive → H.count b = 1

theorem Inv.represents (inv : Inv H) : Represents H where
  handles := fun i h hi => inv.invariants (by simp [hi])
  counted := inv.wf.counted
  exclusive := by
    intro b B hB htag
    rw [← inv.wf.counted b B hB]
    exact inv.sole b B hB htag

/-- Along every allowed run no assertion fails, no access is undefined, and the handles and blocks
represent what they should. -/
theorem buffers_represent (ops : List Op) (hallow : allowsRun junk RefHeap.empty ops = true)
    (n : Nat) : ∃ H, run junk RefHeap.empty (ops.take n) = some H ∧ Represents H := by
  obtain ⟨H, hrun, inv⟩ := Inv.empty.run junk hallow n
  exact ⟨H, hrun, inv.represents⟩

/-- Copies, slices and moves of one buffer, changed and given up in turn. -/
def sharingRun : List Op :=
  [.construct [1, 2, 3, 4] .copyOnWrite, .slice 0 1 2 false, .copyConstruct 0, .put 2 0 [9],
    .append 1 [5, 6], .setPolicy 2 .exclusive, .copyConstruct 2, .size 3 10, .size 1 2, .appendBuffer 1 1,
    .rotate 3 0 2 4, .moveConstruct 3, .clear 3, .copyAssign 3 0, .detach 0, .fill 3 7,
    .moveAssign 0 4, .destroy 1, .destroy 2, .destroy 0]

theorem sharingRun_represents :
    allowsRun (fun _ _ => 0) RefHeap.empty sharingRun = true ∧
      ∀ n, ∃ H, run (fun _ _ => 0) RefHeap.empty (sharingRun.take n) = some H ∧ Represents H :=
  ⟨by decide, buffers_represent (fun _ _ => 0) sharingRun (by decide)⟩

/-- An empty buffer that is appended to fails the assertion at the end of `append`; one that is
assigned more than its block holds is left with no bytes and a pointer into freed memory; and a
detached one is on a block that counts no handle. -/
theorem realloc_and_detach_break :
    run (fun _ _ => 0) RefHeap.empty [.construct [] .copyOnWrite, .append 0 [97]] = none ∧
    (∃ H, run (fun _ _ => 0) RefHeap.empty [.construct [97] .copyOnWrite, .assign 0 [1, 2]] = some H ∧
      invariants H 0 = false ∧ ¬ Represents H) ∧
    ∃ H, run (fun _ _ => 0) RefHeap.empty [.construct [97] .copyOnWrite, .detach 0] = some H ∧
      ¬ Represents H := by
  refine ⟨rfl, ⟨_, rfl, rfl, ?_⟩, ⟨_, rfl, ?_⟩⟩
  · intro hrep
    have hinv := hrep.handles 0 _ rfl
    cases hinv
  · intro hrep
    have hcount := hrep.counted 0 _ rfl
    cases hcount

end Nodeoze.Buffer
