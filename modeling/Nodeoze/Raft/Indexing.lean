import Nodeoze.Raft.Durability

/-!
# Finding an update by its index

The updates of a log have consecutive indices, so that the place of an update is its index less the
first one.  `operator[]` relies on this, but it refuses the indices that are in the log, and reads
outside of the deque for the others.
-/

namespace Nodeoze.Raft

open Reader Bstream Obfilebuf Posix

/-- How a lookup ends without an update; to read outside of the deque is undefined. -/
inductive LookupError
  | logIndexOutOfRange
  | undefined
  deriving DecidableEq, Repr

namespace Log

def front (L : Log) : Except LookupError StateMachineUpdate :=
  match L.log.head? with
  | some e => .ok e
  | none => .error .logIndexOutOfRange

/-- `index_check` -/
def indexCheck (L : Log) (index : UInt64) : Bool :=
  match L.log.head?, L.log.getLast? with
  | some front, some back => front.index ≤ index && index ≤ back.index
  | _, _ => false

/-- `integrity_check`; the size of the deque and the indices are 64-bit numbers. -/
def integrityCheck (L : Log) : Bool :=
  match L.log.head?, L.log.getLast? with
  | some front, some back => UInt64.ofNat L.log.length == back.index + 1 - front.index
  | _, _ => true

/-- `operator[]` -/
def get (L : Log) (index : UInt64) : Except LookupError StateMachineUpdate :=
  if L.indexCheck index then .error .logIndexOutOfRange
  else do
    let front ← L.front
    match L.log[(index - front.index).toNat]? with
    | some e => .ok e
    | none => .error .undefined

/-- The lookup of an index in the log returns the update with the index, and that of another one is
refused. -/
def LooksUp (L : Log) (index : UInt64) : Prop :=
  (L.indexCheck index = true → ∃ e ∈ L.log, e.index = index ∧ L.get index = .ok e) ∧
  (L.indexCheck index = false → L.get index = .error .logIndexOutOfRange)

end Log

/-! ### What the operations do to the updates -/

section

variable {L L' : Log} {err : Option Code}

theorem writeState_log (h : L.writeState = .ok L') : L'.log = L.log := by
  obtain ⟨os, -, hL⟩ := Fallible.bind_eq_ok.mp h
  rw [← Except.ok.inj hL]

theorem append_log {ep : StateMachineUpdate} (h : L.append ep = .ok L') :
    ∃ pos, L'.log = L.log ++ [{ ep with pos := pos }] := by
  obtain ⟨os, -, h₁⟩ := Fallible.bind_eq_ok.mp h
  obtain ⟨os', -, hL⟩ := Fallible.bind_eq_ok.mp h₁
  rw [← Except.ok.inj hL]
  exact ⟨_, rfl⟩

theorem updateReplicantState_log {self t v : UInt64}
    (h : L.updateReplicantState self t v = .ok (L', err)) : L'.log = L.log := by
  unfold Log.updateReplicantState at h
  split at h
  · have hL : L = L' := congrArg Prod.fst (Except.ok.inj h)
    rw [← hL]
  · next state _ =>
    split_ifs at h
    · obtain ⟨L₁, hwrite, h₁⟩ := Fallible.bind_eq_ok.mp h
      have hL : { L₁ with state := L₁.state.clean } = L' := congrArg Prod.fst (Except.ok.inj h₁)
      have hlog := writeState_log hwrite
      rw [← hL]
      exact hlog
    · have hL : { L with state := state } = L' := congrArg Prod.fst (Except.ok.inj h)
      rw [← hL]

/-- `prune_back` keeps a part of the updates from the front. -/
theorem pruneBack_log {index : UInt64} (h : L.pruneBack index = .ok (L', err)) : L'.log <+: L.log := by
  unfold Log.pruneBack at h
  split at h
  · next front back hfront hback =>
    split_ifs at h
    · rw [← (Prod.mk.inj (Except.ok.inj h)).1]
    · obtain ⟨ks, rs, hes, hpop, -, -⟩ := popBack_split index L.log back.pos
      have hks : ks <+: L.log := by
        rw [hes]
        exact List.prefix_append ks rs
      rw [Log.cutBack, hpop] at h
      simp only [List.reverse_reverse] at h
      split at h
      · rw [← (Prod.mk.inj (Except.ok.inj h)).1]
        exact hks
      · split_ifs at h
        · rw [← (Prod.mk.inj (Except.ok.inj h)).1]
          exact hks
        · obtain ⟨L₁, htrunc, hL⟩ := Fallible.bind_eq_ok.mp h
          rw [← (Prod.mk.inj (Except.ok.inj hL)).1]
          obtain ⟨os, -, h₁⟩ := Fallible.bind_eq_ok.mp htrunc
          obtain ⟨os', -, hL₁⟩ := Fallible.bind_eq_ok.mp h₁
          rw [← Except.ok.inj hL₁]
          exact hks
    · rw [← (Prod.mk.inj (Except.ok.inj h)).1]
  · cases h

/-- Writing the updates anew changes nothing but their places. -/
theorem writeEntries_value {es es' : List StateMachineUpdate} {os os' : Obfilebuf}
    (h : Log.writeEntries es os = .ok (es', os')) :
    es'.map StateMachineUpdate.value = es.map StateMachineUpdate.value := by
  induction es generalizing es' os os' with
  | nil => rw [← (Prod.mk.inj (Except.ok.inj h)).1]
  | cons e es ih =>
    obtain ⟨os₁, -, h₁⟩ := Fallible.bind_eq_ok.mp h
    obtain ⟨⟨es₂, os₂⟩, hrest, h₂⟩ := Fallible.bind_eq_ok.mp h₁
    rw [← (Prod.mk.inj (Except.ok.inj h₂)).1]
    exact congrArg (e.value :: ·) (ih hrest)

theorem rewrite_value (h : L.rewrite = .ok L') :
    L'.log.map StateMachineUpdate.value = L.log.map StateMachineUpdate.value := by
  obtain ⟨os, -, h₁⟩ := Fallible.bind_eq_ok.mp h
  obtain ⟨L₂, htemp, hreplace⟩ := Fallible.bind_eq_ok.mp h₁
  obtain ⟨os₁, -, h₃⟩ := Fallible.bind_eq_ok.mp htemp
  obtain ⟨⟨es, os₂⟩, hentries, h₄⟩ := Fallible.bind_eq_ok.mp h₃
  obtain ⟨L₅, hstate, h₅⟩ := Fallible.bind_eq_ok.mp h₄
  obtain ⟨os₃, -, hL₂⟩ := Fallible.bind_eq_ok.mp h₅
  obtain ⟨w, -, h₆⟩ := Fallible.bind_eq_ok.mp hreplace
  obtain ⟨os₄, -, hL⟩ := Fallible.bind_eq_ok.mp h₆
  have hlog : L'.log = es := by
    rw [← Except.ok.inj hL, ← Except.ok.inj hL₂]
    exact writeState_log hstate
  rw [hlog]
  exact writeEntries_value hentries

/-- `prune_front` keeps the values of a part of the updates from the back. -/
theorem pruneFront_log {index : UInt64} (h : L.pruneFront index = .ok (L', err)) :
    ∃ ks, ks <:+ L.log ∧ L'.log.map StateMachineUpdate.value = ks.map StateMachineUpdate.value := by
  have hclose : ∀ {M M' : Log} {code : Code} {err : Option Code},
      M.closeOnError code = .ok (M', err) → M'.log = M.log := by
    intro M M' code err hcall
    obtain ⟨os, -, hL⟩ := Fallible.bind_eq_ok.mp hcall
    rw [← (Prod.mk.inj (Except.ok.inj hL)).1]
  unfold Log.pruneFront at h
  split at h
  · split_ifs at h
    · exact ⟨L.log, List.suffix_refl _, by rw [hclose h]⟩
    · have hkept := List.dropWhile_suffix (l := L.log) fun e => decide (e.index < index)
      simp only at h
      split at h
      · exact ⟨_, hkept, by rw [hclose h]⟩
      · split_ifs at h
        · exact ⟨_, hkept, by rw [hclose h]⟩
        · obtain ⟨L₁, hrewrite, hL⟩ := Fallible.bind_eq_ok.mp h
          rw [← (Prod.mk.inj (Except.ok.inj hL)).1]
          exact ⟨_, hkept, rewrite_value hrewrite⟩
    · rw [← (Prod.mk.inj (Except.ok.inj h)).1]
      exact ⟨L.log, List.suffix_refl _, rfl⟩
  · cases h

/-! ### Consecutive indices -/

/-- The update that the operation adds follows the last one. -/
def Op.Consecutive (L : Log) : Op → Prop
  | .append ep => ∀ a ∈ L.log.getLast?, Follows a ep
  | _ => True

theorem step_consecutive {op : Op} (hop : op.Consecutive L) (hchain : L.log.IsChain Follows)
    (h : L.step op = .ok (L', err)) : L'.log.IsChain Follows := by
  cases op with
  | append ep =>
    obtain ⟨L₁, hcall, hL⟩ := Fallible.bind_eq_ok.mp h
    obtain ⟨pos, hlog⟩ := append_log hcall
    rw [← (Prod.mk.inj (Except.ok.inj hL)).1, hlog, List.isChain_append]
    refine ⟨hchain, List.isChain_singleton _, ?_⟩
    intro a ha b hb
    rw [← Option.some.inj hb]
    exact hop a ha
  | updateReplicantState self t v =>
    rw [updateReplicantState_log h]
    exact hchain
  | pruneFront index =>
    obtain ⟨ks, ⟨pre, hks⟩, hvalue⟩ := pruneFront_log h
    rw [← hks] at hchain
    exact consecutive_of_value hvalue hchain.right_of_append
  | pruneBack index =>
    obtain ⟨rest, hrest⟩ := pruneBack_log h
    rw [← hrest] at hchain
    exact hchain.left_of_append

/-- The index of an update is the first one and the number of the updates between them. -/
theorem index_of_getElem? {front e : StateMachineUpdate} {es : List StateMachineUpdate} {k : Nat}
    (hchain : es.IsChain Follows) (hfront : es.head? = some front) (hk : es[k]? = some e) :
    e.index.toNat = front.index.toNat + k := by
  induction k generalizing es front with
  | zero =>
    rw [← List.head?_eq_getElem?, hfront] at hk
    rw [Option.some.inj hk]
    rfl
  | succ k ih =>
    obtain _ | ⟨a, _ | ⟨b, es⟩⟩ := es
    · cases hk
    · cases hk
    · obtain ⟨hnext, hrest⟩ := List.isChain_cons_cons.mp hchain
      rw [Option.some.inj hfront] at hnext
      unfold Follows at hnext
      have hlater := ih hrest rfl hk
      omega

theorem back_eq {front back : StateMachineUpdate} {es : List StateMachineUpdate}
    (hchain : es.IsChain Follows) (hfront : es.head? = some front) (hback : es.getLast? = some back) :
    back.index.toNat + 1 = front.index.toNat + es.length := by
  have hpos : 0 < es.length := List.length_pos_of_mem (List.mem_of_getLast? hback)
  rw [List.getLast?_eq_getElem?] at hback
  have hlast := index_of_getElem? hchain hfront hback
  omega

theorem integrityCheck_of_consecutive (hchain : L.log.IsChain Follows) : L.integrityCheck = true := by
  unfold Log.integrityCheck
  split
  · next front back hfront hback =>
    have hlast := back_eq hchain hfront hback
    have hlt := front.index.toNat_lt
    have hlt' := back.index.toNat_lt
    rw [beq_iff_eq, ← UInt64.toNat_inj, UInt64.toNat_ofNat', UInt64.toNat_sub, UInt64.toNat_add,
      UInt64.toNat_one]
    omega
  · rfl

/-- The place where `operator[]` looks is the one of the update with the index. -/
theorem getElem?_of_indexCheck {front : StateMachineUpdate} {index : UInt64}
    (hchain : L.log.IsChain Follows) (hfront : L.log.head? = some front)
    (hin : L.indexCheck index = true) :
    ∃ e, L.log[(index - front.index).toNat]? = some e ∧ e.index = index := by
  have hlog : L.log ≠ [] := by
    intro hnil
    rw [hnil] at hfront
    cases hfront
  obtain ⟨_, back, -, hback⟩ := exists_ends hlog
  rw [Log.indexCheck, hfront, hback] at hin
  simp only [Bool.and_eq_true, decide_eq_true_eq] at hin
  have hlast := back_eq hchain hfront hback
  have hlo := UInt64.le_iff_toNat_le.mp hin.1
  have hhi := UInt64.le_iff_toNat_le.mp hin.2
  have hplace : (index - front.index).toNat = index.toNat - front.index.toNat :=
    UInt64.toNat_sub_of_le _ _ hin.1
  have hbound : (index - front.index).toNat < L.log.length := by omega
  refine ⟨_, List.getElem?_eq_getElem hbound, ?_⟩
  have hindex := index_of_getElem? hchain hfront (List.getElem?_eq_getElem hbound)
  apply UInt64.toNat_inj.mp
  omega

/-! ### Lookups -/

/-- Every lookup in an empty log is refused. -/
theorem looksUp_empty (hlog : L.log = []) (index : UInt64) : L.LooksUp index := by
  have hcheck : L.indexCheck index = false := by
    rw [Log.indexCheck, hlog]
    rfl
  refine ⟨fun h => absurd (hcheck.symm.trans h) (by decide), fun _ => ?_⟩
  rw [Log.get, hcheck, Log.front, hlog]
  rfl

/-- No lookup in another log ends as it should. -/
theorem not_looksUp (hlog : L.log ≠ []) (index : UInt64) : ¬L.LooksUp index := by
  rintro ⟨hin, hout⟩
  rcases hcheck : L.indexCheck index with _ | _
  · have hget := hout hcheck
    obtain ⟨front, back, hfront, -⟩ := exists_ends hlog
    rw [Log.get, hcheck, Log.front, hfront] at hget
    have hread : (match L.log[(index - front.index).toNat]? with
        | some e => .ok e
        | none => .error .undefined : Except LookupError StateMachineUpdate) =
          .error .logIndexOutOfRange := hget
    split at hread <;> cases hread
  · obtain ⟨e, -, -, hget⟩ := hin hcheck
    rw [Log.get, hcheck] at hget
    cases hget

/-- The logs that there are: one that has been initialised, or restarted on a file whose updates have
consecutive indices, and what the operations make of these. -/
inductive Obtained (path temp : String) : Log → Prop
  | initialise {world : World String} {id self t v : UInt64} {L : Log}
      (h : (Log.create id path temp world).initialise self t v = .ok L) : Obtained path temp L
  | restart {world : World String} {id self : UInt64} {junk : Nat → Nat → UInt8} {i : Nat}
      {fs : List Frame} {L : Log} {err : Option Code}
      (hd : OnDisk world.disk path temp i (encodeAll fs)) (hf : Holds True self (entries fs) fs)
      (h : (Log.create id path temp world).restart junk self = .ok (L, err)) : Obtained path temp L
  | step {L L' : Log} {op : Op} {err : Option Code} (hL : Obtained path temp L)
      (hop : op.Consecutive L) (h : L.step op = .ok (L', err)) : Obtained path temp L'

theorem initialise_log {world : World String} {path temp : String} {id self t v : UInt64}
    (h : (Log.create id path temp world).initialise self t v = .ok L) : L.log = [] := by
  obtain ⟨os, -, hwrite⟩ := Fallible.bind_eq_ok.mp h
  have hlog := writeState_log hwrite
  unfold Log.removeTemp at hlog
  split_ifs at hlog <;> exact hlog

theorem Obtained.consecutive {path temp : String} (hne : path ≠ temp) (h : Obtained path temp L) :
    L.log.IsChain Follows := by
  induction h with
  | initialise h =>
    rw [initialise_log h]
    exact List.IsChain.nil
  | @restart world id self junk i fs L err hd hf h =>
    obtain ⟨-, hlog, -⟩ := (restart_spec id hne hd hf junk).of_ok h
    have hes : L.log = entries fs := hlog
    rw [hes]
    exact (hf.exact trivial).2
  | step hL hop h ih => exact step_consecutive hop ih h

/-- The log keeps to consecutive indices; but a lookup, of whatever index, ends as it should only in an
empty log. -/
theorem lookup_right_iff {path temp : String} (hne : path ≠ temp) (h : Obtained path temp L) :
    L.integrityCheck = true ∧ ∀ index, L.LooksUp index ↔ L.log = [] := by
  refine ⟨integrityCheck_of_consecutive (h.consecutive hne), fun index => ⟨?_, ?_⟩⟩
  · intro hright
    by_contra hlog
    exact not_looksUp hlog index hright
  · intro hlog
    exact looksUp_empty hlog index

end

/-- The log that has one update refuses its index. -/
theorem appended_lookup : ∃ L, (started >>= fun L => L.append ⟨-1, 1, 4, []⟩) = .ok L ∧
    L.integrityCheck = true ∧ ¬L.LooksUp 4 := by
  have hrun : (started >>= fun L => L.append ⟨-1, 1, 4, []⟩).map (fun L => L.log.length) = .ok 1 := by
    decide +kernel
  obtain ⟨L, hL, hlen⟩ := Fallible.map_eq_ok.mp hrun
  obtain ⟨L₀, hstart, happend⟩ := Fallible.bind_eq_ok.mp hL
  have hempty := initialise_log hstart
  have hop : (Op.append ⟨-1, 1, 4, []⟩).Consecutive L₀ := by
    intro a ha
    rw [hempty] at ha
    cases ha
  have hstep : L₀.step (.append ⟨-1, 1, 4, []⟩) = .ok (L, none) := by
    rw [Log.step, happend]
    rfl
  have hobtained : Obtained "log" "tmp" L := .step (.initialise hstart) hop hstep
  obtain ⟨hintegrity, hlookup⟩ := lookup_right_iff (by decide) hobtained
  refine ⟨L, hL, hintegrity, fun hright => ?_⟩
  rw [(hlookup 4).mp hright] at hlen
  cases hlen

/-- Three updates, of which the first is pruned. -/
def indexedRun : List Op :=
  [.append ⟨-1, 1, 4, []⟩, .append ⟨-1, 1, 5, []⟩, .append ⟨-1, 1, 6, []⟩, .pruneFront 5]

theorem indexedRun_lookup : ∃ L, (started >>= fun L => L.run indexedRun) = .ok L ∧
    L.log.map (·.index) = [5, 6] ∧ L.get 5 = .error .logIndexOutOfRange ∧
    L.get 4 = .error .undefined ∧ ¬L.LooksUp 5 ∧ ¬L.LooksUp 4 := by
  have hrun : (started >>= fun L => L.run indexedRun).map (fun L =>
      (L.log.map (·.index), L.indexCheck 5, L.get 5, L.indexCheck 4, L.get 4)) =
      .ok ([5, 6], true, .error .logIndexOutOfRange, false, .error .undefined) := by decide +kernel
  obtain ⟨L, hL, h⟩ := Fallible.map_eq_ok.mp hrun
  obtain ⟨hlog, h⟩ := Prod.mk.inj h
  obtain ⟨hin, h⟩ := Prod.mk.inj h
  obtain ⟨hget5, h⟩ := Prod.mk.inj h
  obtain ⟨hout, hget4⟩ := Prod.mk.inj h
  refine ⟨L, hL, hlog, hget5, hget4, ?_, ?_⟩
  · rintro ⟨hfound, -⟩
    obtain ⟨e, -, -, he⟩ := hfound hin
    rw [hget5] at he
    cases he
  · rintro ⟨-, hrefused⟩
    have he := hrefused hout
    rw [hget4] at he
    cases he

end Nodeoze.Raft
