import Nodeoze.Raft.LogFile

/-!
# The operations on the log file

`Inv q z L i fs` says that the log `L` is in order: its file, inode `i`, consists of the frames `fs`,
these hold the updates that are in memory, and the stream believes to be at their end.  There is
one specification per operation; a run can end with the error of a system call, and with no other.

`Phase` is what decides whether the descriptor's offset can be relied on.
-/

namespace Nodeoze.Raft

open Reader Bstream Obfilebuf Posix

/-! ### The disk -/

/-- The file at `path` is inode `i` with the bytes `bs`, and the one at `temp` is another one. -/
structure OnDisk (d : Disk String) (path temp : String) (i : Nat) (bs : List UInt8) : Prop where
  wf : d.WF
  dir : d.dir path = some i
  temp : d.dir temp ≠ some i
  content : d.inode i = bs
  bound : bs.length ≤ maxOffset

namespace OnDisk

variable {d d' : Disk String} {w w' : World String} {path temp : String} {i j : Nat}
  {bs bs' : List UInt8}

theorem of_same (h : OnDisk d path temp i bs) (hs : d.SameExcept i d') (hc : d'.inode i = bs')
    (hb : bs'.length ≤ maxOffset) : OnDisk d' path temp i bs' where
  wf := by
    unfold Disk.WF
    rw [hs.dir, hs.next]
    exact h.wf
  dir := by rw [hs.dir, h.dir]
  temp := by
    rw [hs.dir]
    exact h.temp
  content := hc
  bound := hb

theorem of_other (h : OnDisk d path temp i bs) (hij : i ≠ j) (hs : d.SameExcept j d') :
    OnDisk d' path temp i bs where
  wf := by
    unfold Disk.WF
    rw [hs.dir, hs.next]
    exact h.wf
  dir := by rw [hs.dir, h.dir]
  temp := by
    rw [hs.dir]
    exact h.temp
  content := by rw [hs.inode i hij, h.content]
  bound := h.bound

theorem removed (h : OnDisk w.disk path temp i bs) (hne : path ≠ temp) :
    OnDisk (w.remove temp).disk path temp i bs := by
  have hdir : (w.remove temp).disk.dir = Function.update w.disk.dir temp none := rfl
  exact {
    wf := World.remove_wf h.wf temp
    dir := by rw [hdir, Function.update_of_ne hne, h.dir]
    temp := by
      rw [hdir, Function.update_self]
      exact fun ht => nomatch ht
    content := h.content
    bound := h.bound }

/-- A new temporary file is not the log. -/
theorem emptied (h : OnDisk w.disk path temp i bs) (hne : path ≠ temp)
    (he : w.Emptied w' temp j) : i ≠ j ∧ OnDisk w'.disk path temp i bs := by
  have hij : i ≠ j := by
    rintro rfl
    rcases he.file with hold | ⟨-, hnew⟩
    · exact h.temp hold
    · exact absurd (h.wf path i h.dir) (by rw [← hnew]; exact lt_irrefl i)
  refine ⟨hij, ?_⟩
  exact {
    wf := he.wf h.wf
    dir := by rw [he.dir, Function.update_of_ne hne, h.dir]
    temp := by
      rw [he.dir, Function.update_self]
      exact fun ht => hij (Option.some.inj ht).symm
    content := by rw [he.inode i hij, h.content]
    bound := h.bound }

end OnDisk

/-! ### The log object -/

/-- Whose log it is, and where. -/
structure Site where
  self : UInt64
  path : String
  temp : String

def Log.site (L : Log) : Site := ⟨L.self, L.logPathname, L.logTempPathname⟩

structure Inv (q : Prop) (z : Site) (L : Log) (i : Nat) (fs : List Frame) : Prop where
  site : L.site = z
  paths : L.logPathname ≠ L.logTempPathname
  owner : L.state.self = L.self
  file : Holds q L.self L.log fs
  disk : OnDisk L.os.dev.world.disk L.logPathname L.logTempPathname i (encodeAll fs)
  stream : (Shut L.os ∧ L.os.dirty = false) ∨ ∃ app, Rests L.os i app (encodeAll fs)

/-- How far the descriptor can be relied on: `initialise` opens the file with its offset at the
end, and writing keeps it there; `prune_back` does not; a file that was opened again is in append
mode. -/
inductive Phase
  | fresh
  | cut
  | reopened
  deriving DecidableEq, Repr

def Phase.Admits (os : Obfilebuf) : Phase → Prop
  | .fresh => Aligned os
  | .cut => True
  | .reopened => ∀ f, os.dev.fd = some f → f.append = true

theorem Phase.Admits.aligned {ph : Phase} {os : Obfilebuf} (h : ph.Admits os) (hne : ph ≠ .cut) :
    Aligned os := by
  cases ph with
  | fresh => exact h
  | cut => exact absurd rfl hne
  | reopened => exact fun f hf => .inl (h f hf)

section

variable {q : Prop} {z : Site} {L : Log} {i : Nat} {fs fs' : List Frame} {ph : Phase}
  {os' : Obfilebuf} {app : Bool}

/-- The stream has moved on in the same file. -/
theorem Inv.wrote (h : Inv q z L i fs) {es : List StateMachineUpdate} {s : ReplicantState}
    (hs : s.self = L.self) (hf : Holds q L.self es fs') (hr : Rests os' i app (encodeAll fs'))
    (ht : L.os.dev.world.Touches i os'.dev.world) :
    Inv q z { L with state := s, os := os', log := es } i fs' where
  site := h.site
  paths := h.paths
  owner := hs
  file := hf
  disk := h.disk.of_same ht.disk hr.content hr.bound
  stream := .inr ⟨app, hr⟩

theorem Phase.Admits.wrote {os : Obfilebuf} {c c' : List UInt8} (h : ph.Admits os)
    (hr : Rests os i app c) (hr' : Rests os' i app c') (ha : Aligned os') : ph.Admits os' := by
  cases ph with
  | fresh => exact ha
  | cut => trivial
  | reopened =>
    obtain ⟨off, hoff⟩ := hr.fd
    obtain ⟨off', hoff'⟩ := hr'.fd
    intro f hf
    rw [hoff'] at hf
    have happ : app = true := h _ hoff
    rw [← Option.some.inj hf]
    exact happ

theorem rests_writeFrame {os : Obfilebuf} {c : List UInt8} (h : Rests os i app c) (ha : Aligned os)
    (f : Frame) :
    Ends TooBig (writeFrame os f true) fun os' => Rests os' i app (c ++ f.encode) ∧ Aligned os' ∧
      os.dev.world.Touches i os'.dev.world := by
  refine (writeFrame_flush (h.atEnd ha) f).imp ?_
  rintro os' ⟨hw, hr⟩
  exact ⟨hr, hw.atEnd.aligned, hw.touches⟩

theorem isErrno_of_tooBig {e : Failure} (h : TooBig e) : IsErrno e := ⟨_, h⟩

theorem encodeAll_concat (fs : List Frame) (f : Frame) :
    encodeAll (fs ++ [f]) = encodeAll fs ++ f.encode := by
  rw [encodeAll_append]
  exact congrArg _ (List.append_nil _)

/-- The hard state with the place where it is written. -/
def stateAt (fs : List Frame) (s : ReplicantState) : ReplicantState := { s with pos := endPos fs }

theorem writeState_atEnd (h : AtEnd L.os i app (encodeAll fs)) :
    Ends TooBig L.writeState fun L' => ∃ os', L' = { L with state := stateAt fs L.state, os := os' } ∧
      Rests os' i app (encodeAll (fs ++ [.replicantState (stateAt fs L.state)])) ∧ Aligned os' ∧
      L.os.dev.world.Touches i os'.dev.world := by
  have hpos : position L.os = endPos fs := position_eq h
  rw [Log.writeState, hpos]
  refine (writeFrame_flush h (.replicantState (stateAt fs L.state))).bind ?_
  rintro os' ⟨hw, hr⟩
  exact .ok ⟨os', rfl, by rw [encodeAll_concat]; exact hr, hw.atEnd.aligned, hw.touches⟩

theorem writeState_spec (h : Inv q z L i fs) (hph : ph.Admits L.os) (hne : ph ≠ .cut) :
    Ends IsErrno L.writeState fun L' =>
      Inv q z L' i (fs ++ [.replicantState (stateAt fs L.state)]) ∧ ph.Admits L'.os ∧
      L'.state = stateAt fs L.state ∧ L'.log = L.log := by
  rcases h.stream with ⟨hshut, -⟩ | ⟨app, hr⟩
  · unfold Log.writeState
    refine Ends.bind (writeFrame_shut hshut _) ?_
    exact fun _ hfalse => hfalse.elim
  · refine ((writeState_atEnd (hr.atEnd (hph.aligned hne))).allow fun _ => isErrno_of_tooBig).imp ?_
    rintro L' ⟨os', rfl, hr', ha', ht⟩
    refine ⟨h.wrote h.owner (h.file.add_state h.owner rfl) hr' ht, hph.wrote hr hr' ha', rfl, rfl⟩

theorem append_spec (h : Inv q z L i fs) (hph : ph.Admits L.os) (hne : ph ≠ .cut)
    {ep : StateMachineUpdate} (hnext : q → ∀ a, L.log.getLast? = some a → Follows a ep)
    (hsmall : ep.Small) :
    Ends IsErrno (L.append ep) fun L' =>
      Inv q z L' i (fs ++ [.stateMachineUpdate { ep with pos := endPos fs }]) ∧ ph.Admits L'.os ∧
      L'.state = L.state ∧ L'.log = L.log ++ [{ ep with pos := endPos fs }] := by
  rcases h.stream with ⟨hshut, -⟩ | ⟨app, hr⟩
  · unfold Log.append
    refine Ends.bind (writeFrame_shut hshut _) ?_
    exact fun _ hfalse => hfalse.elim
  · have ha := hph.aligned hne
    have hpos : position L.os = endPos fs := position_eq (hr.atEnd ha)
    rw [Log.append, hpos]
    refine ((rests_writeFrame hr ha _).allow fun _ => isErrno_of_tooBig).bind ?_
    rintro os' ⟨hr', ha', ht⟩
    rw [flush_of_clean hr'.clean]
    rw [← encodeAll_concat] at hr'
    exact .ok ⟨h.wrote h.owner (h.file.add_entry rfl hnext hsmall) hr' ht, hph.wrote hr hr' ha',
      rfl, rfl⟩

theorem Inv.set_state (h : Inv q z L i fs) {s : ReplicantState} (hs : s.self = L.self) :
    Inv q z { L with state := s } i fs :=
  ⟨h.site, h.paths, hs, h.file, h.disk, h.stream⟩

/-- The file after `update_replicant_state` has made the state `s`. -/
def stateFrames (fs : List Frame) (s : ReplicantState) : List Frame :=
  if s.dirty then fs ++ [.replicantState (stateAt fs s)] else fs

theorem updateReplicantState_spec (h : Inv q z L i fs) (hph : ph.Admits L.os) {t v : UInt64}
    (hne : (L.state.update t v).dirty = true → ph ≠ .cut) :
    Ends IsErrno (L.updateReplicantState L.self t v) fun r =>
      Inv q z r.1 i (stateFrames fs (L.state.update t v)) ∧ ph.Admits r.1.os ∧
      (r.1.state.term, r.1.state.vote) = (t, v) ∧ r.1.log = L.log := by
  have hupdate : L.state.updateFrom ⟨-1, false, L.self, t, v⟩ = .ok (L.state.update t v) := by
    rw [ReplicantState.updateFrom, if_neg (not_not.mpr h.owner.symm)]
  have hself : (L.state.update t v).self = L.self := by
    rw [ReplicantState.update_self, h.owner]
  rw [Log.updateReplicantState, hupdate, stateFrames]
  show Ends IsErrno (if (L.state.update t v).dirty = true then _ else _) _
  have h' := h.set_state hself
  split_ifs with hdirty
  · refine (writeState_spec h' hph (hne hdirty)).bind ?_
    rintro L' ⟨hinv, hadm, hstate, hlog⟩
    refine .ok ⟨hinv.set_state ?_, hadm, ?_, hlog⟩
    · exact hinv.owner
    · show (L'.state.term, L'.state.vote) = (t, v)
      rw [hstate]
      simp [stateAt]
  · exact .ok ⟨h', hph, by simp, rfl⟩

/-! ### Pruning at the back -/

/-- The loop of `prune_back` takes updates from the back, and ends with the place of the last one it
took. -/
theorem popBack_split (index : UInt64) (es : List StateMachineUpdate) :
    ∀ p, ∃ ks rs, es = ks ++ rs ∧
      Log.popBack index p es.reverse = (ks.reverse, (rs.head?.map StateMachineUpdate.pos).getD p) ∧
      (∀ r ∈ rs, index < r.index) ∧ ∀ k, ks.getLast? = some k → ¬ index < k.index := by
  induction es using List.reverseRecOn with
  | nil =>
    intro p
    exact ⟨[], [], rfl, rfl, by simp, by simp⟩
  | append_singleton es e ih =>
    intro p
    rw [List.reverse_append, List.reverse_singleton, List.singleton_append, Log.popBack]
    split_ifs with he
    · obtain ⟨ks, rs, hes, hpop, hrs, hks⟩ := ih e.pos
      refine ⟨ks, rs ++ [e], by rw [hes, List.append_assoc], ?_, ?_, hks⟩
      · rw [hpop]
        obtain _ | ⟨r, rs⟩ := rs <;> rfl
      · intro r hr
        rcases List.mem_append.mp hr with hr | hr
        · exact hrs r hr
        · rw [List.mem_singleton.mp hr]
          exact he
    · refine ⟨es ++ [e], [], by simp, by simp, by simp, ?_⟩
      intro k hk
      rw [List.getLast?_concat] at hk
      rw [← Option.some.inj hk]
      exact he

theorem truncate_shut (hshut : Shut L.os) (hclean : L.os.dirty = false) {n : Nat} {pos : Int64}
    (hpos : pos.toInt = n) : Ends IsErrno (L.truncate pos) fun _ => False := by
  have hseek : Obfilebuf.seek L.os .begin n = .ok { L.os with pbaseOffset := n, pnext := 0 } := by
    rw [Obfilebuf.seek, flush_of_clean hclean]
    rfl
  have htrunc : Obfilebuf.truncate { L.os with pbaseOffset := n, pnext := 0 } =
      .error (.errno .badf) := by
    rw [Obfilebuf.truncate, flush_of_clean (s := { L.os with pbaseOffset := n, pnext := 0 }) hclean]
    show (descriptor { L.os with pbaseOffset := n, pnext := 0 } >>= _) = _
    rw [descriptor, hshut.fd]
    rfl
  rw [Log.truncate, hpos, hseek]
  show Ends IsErrno (Obfilebuf.truncate _ >>= _) _
  rw [htrunc]
  exact .error ⟨_, rfl⟩

/-- The place of a frame within the bounds of a file. -/
theorem toInt_endPos {gs hs : List Frame} (hfs : fs = gs ++ hs)
    (hbound : (encodeAll fs).length ≤ maxOffset) :
    (endPos gs).toInt = (encodeAll gs).length := by
  rw [hfs, encodeAll_append, List.length_append] at hbound
  unfold maxOffset at hbound
  rw [endPos, Int64.toInt_ofNat_of_lt (by omega)]

theorem truncate_rests (hr : Rests L.os i app (encodeAll fs)) {gs hs : List Frame}
    (hfs : fs = gs ++ hs) {pos : Int64} (hpos : pos = endPos gs) :
    ∃ os', L.truncate pos = .ok { L with os := os' } ∧ Rests os' i app (encodeAll gs) ∧
      os'.dev.fd = L.os.dev.fd ∧ L.os.dev.world.Touches i os'.dev.world := by
  have hlen : (encodeAll gs).length ≤ (encodeAll fs).length := by
    rw [hfs, encodeAll_append, List.length_append]
    omega
  have hint : pos.toInt = (encodeAll gs).length := by rw [hpos, toInt_endPos hfs hr.bound]
  have htake : (encodeAll fs).take (encodeAll gs).length = encodeAll gs := by
    rw [hfs, encodeAll_append, List.take_left]
  obtain ⟨os', hcut, hr', hfd, ht, -⟩ := hr.cut hlen
  rw [htake] at hr'
  refine ⟨os', ?_, hr', hfd, ht⟩
  rw [Log.truncate, hint]
  show (Obfilebuf.seek L.os .begin _ >>= fun os => Obfilebuf.truncate os >>= fun os =>
    pure { L with os := os }) = _
  rw [← bind_assoc, hcut]
  rfl

/-- Where `prune_back( index )` cuts the file, if it does. -/
def Log.cutPos (L : Log) (index : UInt64) : Option Int64 :=
  match L.log.head?, L.log.getLast? with
  | some front, some back =>
    let (rest, truncateAt) := Log.popBack index back.pos L.log.reverse
    if front.index ≤ index ∧ index < back.index ∧ rest.head?.map (·.index) = some index then
      some truncateAt
    else none
  | _, _ => none

def Phase.afterCut : Phase → Phase
  | .reopened => .reopened
  | _ => .cut

/-- Cutting leaves the descriptor as it is. -/
theorem Phase.Admits.of_fd {os : Obfilebuf} (h : ph.Admits os) (hfd : os'.dev.fd = os.dev.fd) :
    ph.afterCut.Admits os' := by
  cases ph with
  | reopened =>
    intro f hf
    exact h f (hfd ▸ hf)
  | _ => trivial

theorem exists_ends {es : List StateMachineUpdate} (hes : es ≠ []) :
    ∃ front back, es.head? = some front ∧ es.getLast? = some back := by
  obtain ⟨front, hfront⟩ := Option.ne_none_iff_exists'.mp (mt List.head?_eq_none_iff.mp hes)
  obtain ⟨back, hback⟩ := Option.ne_none_iff_exists'.mp (mt List.getLast?_eq_none_iff.mp hes)
  exact ⟨front, back, hfront, hback⟩

/-- The file after `prune_back( index )`. -/
def Log.cutFile (L : Log) (index : UInt64) (fs : List Frame) : List Frame :=
  match L.cutPos index with
  | some pos => cutAt pos fs
  | none => fs

def Log.cutPhase (L : Log) (index : UInt64) (ph : Phase) : Phase :=
  if (L.cutPos index).isSome then ph.afterCut else ph

/-- The file is cut where the update `a` starts. -/
theorem truncate_spec (h : Inv q z L i fs) (hph : ph.Admits L.os)
    {ks rs : List StateMachineUpdate} {a : StateMachineUpdate} (hes : L.log = ks ++ a :: rs) :
    Ends IsErrno ({ L with log := ks }.truncate a.pos) fun L' =>
      Inv q z L' i (cutAt a.pos fs) ∧ ph.afterCut.Admits L'.os ∧ L'.state = L.state := by
  have hfile := h.file
  rw [hes] at hfile
  obtain ⟨hcut, hpos, gs, hfs⟩ := hfile.cut h.disk.bound
  rcases h.stream with ⟨hshut, hclean⟩ | ⟨app, hr⟩
  · have hint : a.pos.toInt = (encodeAll (cutAt a.pos fs)).length := by
      rw [← toInt_endPos hfs h.disk.bound, ← hpos]
    exact (truncate_shut (L := { L with log := ks }) hshut hclean hint).imp
      fun _ hfalse => hfalse.elim
  · obtain ⟨os', htrunc, hr', hfd, ht⟩ := truncate_rests (L := { L with log := ks }) hr hfs hpos
    rw [htrunc]
    exact .ok ⟨h.wrote h.owner hcut hr' ht, hph.of_fd hfd, rfl⟩

/-- With consecutive indices the loop of `prune_back` ends at the index. -/
theorem back_index {ks rs : List StateMachineUpdate} {a front : StateMachineUpdate}
    (hchain : (ks ++ a :: rs).IsChain Follows) (hfront : (ks ++ a :: rs).head? = some front)
    {index : UInt64} (hlo : front.index ≤ index) (ha : index < a.index)
    (hks : ∀ k, ks.getLast? = some k → ¬ index < k.index) :
    ∃ k, ks.getLast? = some k ∧ k.index = index := by
  rcases hlast : ks.getLast? with _ | k
  · rw [List.getLast?_eq_none_iff] at hlast
    rw [hlast] at hfront
    rw [← Option.some.inj hfront] at hlo
    exact absurd hlo (UInt64.not_le.mpr ha)
  · rw [List.isChain_append] at hchain
    exact ⟨k, rfl, (hchain.2.2 k hlast a rfl).eq_left (hks k hlast) ha⟩

theorem pruneBack_spec (h : Inv q z L i fs) (hph : ph.Admits L.os) (hlog : L.log ≠ [])
    (index : UInt64) :
    Ends IsErrno (L.pruneBack index) fun r =>
      Inv q z r.1 i (L.cutFile index fs) ∧ (L.cutPhase index ph).Admits r.1.os ∧
      r.1.state = L.state := by
  obtain ⟨front, back, hfront, hback⟩ := exists_ends hlog
  obtain ⟨ks, rs, hes, hpop, hrs, hks⟩ := popBack_split index L.log back.pos
  have hcutPos : L.cutPos index = if front.index ≤ index ∧ index < back.index ∧
      (ks.getLast?).map (·.index) = some index then
        some ((rs.head?.map StateMachineUpdate.pos).getD back.pos) else none := by
    rw [Log.cutPos, hfront, hback]
    simp only [hpop, List.head?_reverse]
  have hkeep : L.cutPos index = none → Inv q z L i (L.cutFile index fs) ∧
      (L.cutPhase index ph).Admits L.os ∧ L.state = L.state := by
    intro hnone
    rw [Log.cutFile, Log.cutPhase, hnone]
    exact ⟨h, hph, rfl⟩
  rw [Log.pruneBack, hfront, hback]
  simp only
  split_ifs with hout hlt
  · refine .ok (hkeep ?_)
    rw [hcutPos, if_neg]
    rintro ⟨hlo, hhi, -⟩
    rcases hout with hout | hout
    · exact absurd hlo (UInt64.not_le.mpr hout)
    · exact absurd (UInt64.lt_trans hhi hout) (UInt64.lt_irrefl _)
  · have hlo : front.index ≤ index := UInt64.not_lt.mp fun hbad => hout (.inl hbad)
    obtain _ | ⟨a, rs⟩ := rs
    · -- the last update is behind the index
      rw [hes, List.append_nil] at hback
      exact absurd hlt (hks back hback)
    · have ha := hrs a List.mem_cons_self
      rw [Log.cutBack, hpop]
      simp only [List.reverse_reverse]
      have hlost : ∀ err : Code, (ks.getLast?).map (·.index) ≠ some index →
          Ends IsErrno (.ok ({ L with log := ks }, some err) : Except Failure (Log × Option Code))
            fun r => Inv q z r.1 i (L.cutFile index fs) ∧
              (L.cutPhase index ph).Admits r.1.os ∧ r.1.state = L.state := by
        intro err hne
        have hnone : L.cutPos index = none := by
          rw [hcutPos, if_neg]
          exact fun hc => hne hc.2.2
        rw [Log.cutFile, Log.cutPhase, hnone]
        have hq : ¬ q := by
          intro hq
          have hchain := (h.file.exact hq).2
          rw [hes] at hchain hfront
          obtain ⟨k, hlast, hk⟩ := back_index hchain hfront hlo ha hks
          rw [hlast] at hne
          exact hne (congrArg some hk)
        have hsub : ks.Sublist L.log := by
          rw [hes]
          exact List.sublist_append_left ks _
        exact .ok ⟨⟨h.site, h.paths, h.owner, h.file.forget hsub hq, h.disk, h.stream⟩, hph, rfl⟩
      split
      · next hlast => exact hlost _ (by rw [hlast]; simp)
      · next k hlast =>
        split_ifs with hk
        · exact hlost _ (by rw [hlast]; simpa using hk)
        · have hsome : L.cutPos index = some a.pos := by
            rw [hcutPos, if_pos ⟨hlo, hlt, by rw [hlast]; simpa using hk⟩]
            rfl
          rw [Log.cutFile, Log.cutPhase, hsome]
          exact (truncate_spec h hph hes).bind fun _ hL' => .ok hL'
  · refine .ok (hkeep ?_)
    rw [hcutPos, if_neg]
    exact fun hc => hlt hc.2.1

/-! ### Pruning at the front -/

theorem writeEntries_spec {j : Nat} (es : List StateMachineUpdate) :
    ∀ {os c}, AtEnd os j app c → Ends TooBig (Log.writeEntries es os) fun r =>
      r.1 = entries (relocate c.length es) ∧
      Wrote os r.2 j app (c ++ encodeAll (relocate c.length es)) := by
  induction es with
  | nil =>
    intro os c h
    refine .ok ⟨rfl, ?_⟩
    show Wrote os os j app (c ++ [])
    rw [List.append_nil]
    exact h.wrote
  | cons e es ih =>
    intro os c h
    rw [Log.writeEntries, position_eq h]
    refine (writeFrame_wrote h _).bind ?_
    intro os₁ hw₁
    refine (ih hw₁.atEnd).bind ?_
    rintro ⟨es', os₂⟩ ⟨hes', hw₂⟩
    rw [List.length_append] at hes' hw₂
    refine .ok ⟨congrArg _ hes', ?_⟩
    rw [List.append_assoc] at hw₂
    exact hw₁.trans hw₂

/-- The file that `prune_front` writes. -/
def rewritten (es : List StateMachineUpdate) (s : ReplicantState) : List Frame :=
  relocate 0 es ++ [.replicantState (stateAt (relocate 0 es) s)]

/-- The temporary file takes the place of the log. -/
theorem rename_spec {w : World String} {path temp : String} {j : Nat} {bs : List UInt8}
    (hne : path ≠ temp) (hwf : w.disk.WF)
    (htemp : w.disk.dir temp = some j) (hc : w.disk.inode j = bs) (hb : bs.length ≤ maxOffset) :
    ∃ w', w.rename temp path = .ok w' ∧ OnDisk w'.disk path temp j bs ∧
      w'.past = w.disk :: w.past := by
  let d : Disk String := { w.disk with
    dir := Function.update (Function.update w.disk.dir path (some j)) temp none }
  have hrename : w.rename temp path = .ok (w.commit d) := by
    rw [World.rename, htemp]
    simp only [if_neg hne.symm]
    rfl
  refine ⟨w.commit d, hrename, ?_, rfl⟩
  exact {
    wf := by
      intro p k hp
      have hp' : Function.update (Function.update w.disk.dir path (some j)) temp none p = some k := hp
      by_cases hpt : p = temp
      · rw [hpt, Function.update_self] at hp'
        cases hp'
      · rw [Function.update_of_ne hpt] at hp'
        by_cases hpl : p = path
        · rw [hpl, Function.update_self] at hp'
          rw [← Option.some.inj hp']
          exact hwf temp j htemp
        · rw [Function.update_of_ne hpl] at hp'
          exact hwf p k hp'
    dir := by
      show Function.update (Function.update w.disk.dir path (some j)) temp none path = some j
      rw [Function.update_of_ne hne, Function.update_self]
    temp := by
      show Function.update (Function.update w.disk.dir path (some j)) temp none temp ≠ some j
      rw [Function.update_self]
      exact fun ht => nomatch ht
    content := hc
    bound := hb }

/-- The temporary file is complete, and on no disk on the way has the log been touched. -/
theorem writeTemp_spec {c : List UInt8} (hne : L.logPathname ≠ L.logTempPathname)
    (hclosed : L.os.dev.fd = none) (hsize : 0 < L.os.dev.size) (hwritable : L.os.writable = true)
    (hd : OnDisk L.os.dev.world.disk L.logPathname L.logTempPathname i c) :
    Ends TooBig L.writeTemp fun L' => ∃ j os',
      L' = { L with state := stateAt (relocate 0 L.log) L.state,
                    log := entries (relocate 0 L.log), os := os' } ∧
      os'.dev.fd = none ∧ 0 < os'.dev.size ∧ os'.writable = true ∧
      os'.dev.world.disk.dir L.logTempPathname = some j ∧
      os'.dev.world.disk.inode j = encodeAll (rewritten L.log L.state) ∧
      (encodeAll (rewritten L.log L.state)).length ≤ maxOffset ∧
      OnDisk os'.dev.world.disk L.logPathname L.logTempPathname i c ∧
      ∃ ds, os'.dev.world.past = ds ++ L.os.dev.world.past ∧
        ∀ d ∈ ds, OnDisk d L.logPathname L.logTempPathname i c := by
  obtain ⟨os₁, j, hopen, hr₁, ha₁, hemptied, -⟩ :=
    open_truncate hclosed hsize hwritable L.logTempPathname
  obtain ⟨hij, hd₁⟩ := hd.emptied hne hemptied
  rw [Log.writeTemp]
  refine Ends.after hopen ?_
  refine (writeEntries_spec L.log (hr₁.atEnd ha₁)).bind ?_
  rintro ⟨es, os₂⟩ ⟨hes, hw₂⟩
  rw [List.nil_append] at hw₂
  have hat : AtEnd { L with os := os₂, log := es }.os j false (encodeAll (relocate 0 L.log)) :=
    hw₂.atEnd
  refine (writeState_atEnd hat).bind ?_
  rintro _ ⟨os₃, rfl, hr₃, -, ht₃⟩
  have htouch : os₁.dev.world.Touches j os₃.dev.world := hw₂.touches.trans ht₃
  obtain ⟨ds, hds, hsame⟩ := htouch.past
  show Ends TooBig (Obfilebuf.close os₃ >>= _) _
  rw [hr₃.close]
  refine .ok ⟨j, setFile os₃ os₃.dev.world none, ?_, rfl, hr₃.size_pos, hr₃.writable, ?_, hr₃.content, hr₃.bound,
    hd₁.of_other hij htouch.disk, ds ++ [L.os.dev.world.disk], ?_, ?_⟩
  · rw [show es = entries (relocate 0 L.log) from hes]
  · show os₃.dev.world.disk.dir L.logTempPathname = some j
    rw [htouch.disk.dir, hemptied.dir, Function.update_self]
  · show os₃.dev.world.past = _
    rw [hds, hemptied.past, List.append_assoc]
    rfl
  · intro d hmem
    rcases List.mem_append.mp hmem with hmem | hmem
    · exact hd₁.of_other hij (hsame d hmem)
    · rw [List.mem_singleton.mp hmem]
      exact hd

/-- The log as `prune_front` leaves it. -/
def Log.relocated (L : Log) : Log :=
  { L with state := stateAt (relocate 0 L.log) L.state, log := entries (relocate 0 L.log) }

/-- Closing, writing the temporary file, renaming it and opening it again: until the rename the
log is what it was, and from then on it is the new one. -/
theorem rewrite_rests {c : List UInt8} (hne : L.logPathname ≠ L.logTempPathname)
    (hr : Rests L.os i app c)
    (hd : OnDisk L.os.dev.world.disk L.logPathname L.logTempPathname i c) :
    Ends TooBig L.rewrite fun L' => ∃ j os', L' = { L.relocated with os := os' } ∧
      Rests os' j true (encodeAll (rewritten L.log L.state)) ∧
      OnDisk os'.dev.world.disk L.logPathname L.logTempPathname j
        (encodeAll (rewritten L.log L.state)) ∧
      ∃ ds, os'.dev.world.past = ds ++ L.os.dev.world.past ∧
        ∀ d ∈ ds, OnDisk d L.logPathname L.logTempPathname i c := by
  rw [Log.rewrite]
  refine Ends.after hr.close ?_
  have htemp := writeTemp_spec (L := { L with os := setFile L.os L.os.dev.world none }) hne rfl
    hr.size_pos hr.writable hd
  refine htemp.bind ?_
  rintro _ ⟨j, os₁, rfl, hfd, hsize, hwritable, hdir, hc, hbound, hd₁, ds, hds, hold⟩
  obtain ⟨w, hrename, hd₂, hpast⟩ := rename_spec hne hd₁.wf hdir hc hbound
  rw [Log.replaceLog]
  have hmap : ((os₁.dev.world.rename L.logTempPathname L.logPathname).mapError Failure.errno) =
      .ok w := by
    rw [hrename]
    rfl
  refine Ends.after hmap ?_
  obtain ⟨os₂, hopen, hr₂, hworld, -⟩ :=
    open_append (s := { os₁ with dev := { os₁.dev with world := w } }) hfd hsize hwritable hd₂.dir
      (by rw [hd₂.content]; exact hd₂.bound)
  rw [show w.disk.inode j = _ from hd₂.content] at hr₂
  refine Ends.after hopen ?_
  refine .ok ⟨j, os₂, rfl, hr₂, ?_, os₁.dev.world.disk :: ds, ?_, ?_⟩
  · rw [hworld]
    exact hd₂
  · rw [hworld]
    show w.past = _
    rw [hpast, hds]
    rfl
  · exact List.forall_mem_cons.mpr ⟨hd₁, hold⟩

theorem Phase.Admits.reopened {os : Obfilebuf} {c : List UInt8} (hr : Rests os i true c) :
    Phase.reopened.Admits os := by
  intro f hf
  obtain ⟨off, hoff⟩ := hr.fd
  rw [hf] at hoff
  rw [Option.some.inj hoff]

theorem Phase.Admits.closed (ph : Phase) {os : Obfilebuf} (hfd : os.dev.fd = none) :
    ph.Admits os := by
  have hnone : ∀ f, os.dev.fd ≠ some f := by
    intro f hf
    rw [hfd] at hf
    cases hf
  cases ph with
  | fresh => exact fun f hf => absurd hf (hnone f)
  | cut => trivial
  | reopened => exact fun f hf => absurd hf (hnone f)

theorem Inv.closed (h : Inv q z L i fs) (hr : Rests L.os i app (encodeAll fs)) :
    Inv q z { L with os := setFile L.os L.os.dev.world none } i fs where
  site := h.site
  paths := h.paths
  owner := h.owner
  file := h.file
  disk := h.disk
  stream := by
    refine .inl ⟨?_, hr.clean⟩
    exact {
      fd := rfl
      dirty := by
        intro hpos
        have hpos' : 0 < L.os.pnext := hpos
        rw [hr.next] at hpos'
        exact absurd hpos' (lt_irrefl 0)
      window := hr.window
      room := by
        show L.os.pnext ≤ L.os.pend
        rw [hr.next]
        exact Nat.zero_le _
      size_pos := hr.size_pos
      writable := hr.writable }

theorem closeOnError_spec (h : Inv q z L i fs) (ph : Phase) (err : Code) :
    ∃ os', L.closeOnError err = .ok ({ L with os := os' }, some err) ∧
      Inv q z { L with os := os' } i fs ∧ ph.Admits os' ∧ os'.dev.world = L.os.dev.world := by
  rcases h.stream with ⟨hshut, -⟩ | ⟨app, hr⟩
  · refine ⟨L.os, ?_, h, .closed ph hshut.fd, rfl⟩
    rw [Log.closeOnError, closeIfOpen, isOpen, hshut.fd]
    rfl
  · obtain ⟨off, hfd⟩ := hr.fd
    refine ⟨setFile L.os L.os.dev.world none, ?_, h.closed hr, .closed ph rfl, rfl⟩
    rw [Log.closeOnError, closeIfOpen, isOpen, hfd, Option.isSome_some, if_pos rfl, hr.close]
    rfl

/-- The updates that `prune_front( index )` keeps. -/
def keptFrom (index : UInt64) (es : List StateMachineUpdate) : List StateMachineUpdate :=
  es.dropWhile fun e => e.index < index

/-- `prune_front( index )` writes the file anew. -/
def Log.cutsFront (L : Log) (index : UInt64) : Bool :=
  match L.log.head?, L.log.getLast? with
  | some front, some back =>
    front.index < index && index ≤ back.index &&
      (keptFrom index L.log).head?.map (·.index) == some index
  | _, _ => false

theorem pruneFront_cuts (L : Log) {index : UInt64} (hcuts : L.cutsFront index = true) :
    L.pruneFront index =
      ({ L with log := keptFrom index L.log }.rewrite >>= fun L => pure (L, none)) := by
  unfold Log.cutsFront at hcuts
  split at hcuts
  · next front back hfront hback =>
    simp only [Bool.and_eq_true, decide_eq_true_eq, beq_iff_eq] at hcuts
    obtain ⟨⟨hlo, hhi⟩, hhead⟩ := hcuts
    have hrange : ¬ (index < front.index ∨ back.index < index) := by
      rintro (hbad | hbad)
      · exact absurd (UInt64.lt_trans hlo hbad) (UInt64.lt_irrefl _)
      · exact absurd hhi (UInt64.not_le.mpr hbad)
    obtain ⟨e, he, hindex⟩ := Option.map_eq_some_iff.mp hhead
    rw [Log.pruneFront, hfront, hback]
    simp only [if_neg hrange, if_pos hlo]
    have hdrop : (L.log.dropWhile fun e => e.index < index).head? = some e := he
    rw [hdrop]
    simp only [hindex, ne_eq, not_true_eq_false, if_false]
    rfl
  · cases hcuts

/-- With consecutive indices the loop of `prune_front` ends at the index. -/
theorem front_index {es : List StateMachineUpdate} {front back : StateMachineUpdate}
    (hchain : es.IsChain Follows) (hfront : es.head? = some front) (hback : es.getLast? = some back)
    {index : UInt64} (hlo : front.index < index) (hhi : index ≤ back.index) :
    (keptFrom index es).head?.map (·.index) = some index := by
  let p : StateMachineUpdate → Bool := fun e => e.index < index
  have hes : es.takeWhile p ++ keptFrom index es = es := List.takeWhile_append_dropWhile
  have hpre : ∀ e ∈ es.takeWhile p, e.index < index := by
    intro e he
    simpa [p] using List.all_eq_true.mp List.all_takeWhile e he
  rcases hkept : keptFrom index es with _ | ⟨e, post⟩
  · rw [hkept, List.append_nil] at hes
    have hmem : back ∈ es.takeWhile p := by
      rw [hes]
      exact List.mem_of_getLast? hback
    exact absurd hhi (UInt64.not_le.mpr (hpre back hmem))
  · have he : ¬ e.index < index := by
      have hstop := List.head?_dropWhile_not p es
      rw [show es.dropWhile p = e :: post from hkept] at hstop
      simpa [p] using hstop
    rw [List.head?_cons, Option.map_some]
    rcases hlast : (es.takeWhile p).getLast? with _ | x
    · rw [List.getLast?_eq_none_iff] at hlast
      rw [hkept, hlast, List.nil_append] at hes
      rw [← hes] at hfront
      rw [← Option.some.inj hfront] at hlo
      exact absurd hlo he
    · rw [hkept] at hes
      rw [← hes, List.isChain_append] at hchain
      have hfollows := hchain.2.2 x hlast e rfl
      exact congrArg some (hfollows.eq_right (hpre x (List.mem_of_getLast? hlast)) he)

theorem pruneFront_keeps (h : Inv q z L i fs) (hph : ph.Admits L.os) (hlog : L.log ≠ [])
    {index : UInt64} (hcuts : L.cutsFront index = false) :
    ∃ ks os' err, L.pruneFront index = .ok ({ L with log := ks, os := os' }, err) ∧
      Inv q z { L with log := ks, os := os' } i fs ∧ ph.Admits os' ∧
      os'.dev.world = L.os.dev.world := by
  obtain ⟨front, back, hfront, hback⟩ := exists_ends hlog
  rw [Log.cutsFront, hfront, hback] at hcuts
  simp only [Bool.and_eq_false_iff, decide_eq_false_iff_not, UInt64.not_le, UInt64.not_lt] at hcuts
  rw [Log.pruneFront, hfront, hback]
  simp only
  split_ifs with hout hlt
  · obtain ⟨os', hcall, hinv, hadm⟩ := closeOnError_spec h ph .invalidArgument
    exact ⟨L.log, os', _, hcall, hinv, hadm⟩
  · have hhi : index ≤ back.index := UInt64.not_lt.mp fun hbad => hout (.inr hbad)
    have hhead : (keptFrom index L.log).head?.map (·.index) ≠ some index := by
      rcases hcuts with (hcuts | hcuts) | hcuts
      · exact absurd hlt (UInt64.not_lt.mpr hcuts)
      · exact absurd hhi (UInt64.not_le.mpr hcuts)
      · simpa using hcuts
    have hq : ¬ q := fun hq => hhead (front_index (h.file.exact hq).2 hfront hback hlt hhi)
    have hinv : Inv q z { L with log := keptFrom index L.log } i fs :=
      ⟨h.site, h.paths, h.owner, h.file.forget (List.dropWhile_sublist _) hq, h.disk, h.stream⟩
    obtain ⟨os', hcall, hinv', hadm⟩ := closeOnError_spec hinv ph .stateNotRecoverable
    refine ⟨keptFrom index L.log, os', some .stateNotRecoverable, ?_, hinv', hadm⟩
    rcases hfirst : (L.log.dropWhile fun e => e.index < index).head? with _ | e
    · rw [hfirst]
      exact hcall
    · rw [hfirst]
      rw [keptFrom, hfirst] at hhead
      simp only [show e.index ≠ index from fun he => hhead (congrArg some he), ne_eq,
        not_false_eq_true, if_true]
      exact hcall
  · exact ⟨L.log, L.os, none, rfl, h, hph, rfl⟩

/-- What `prune_front` leaves on the disk and in memory, if the file is open. -/
theorem pruneFront_rests (h : Inv q z L i fs) (hr : Rests L.os i app (encodeAll fs)) {index : UInt64}
    (hcuts : L.cutsFront index = true) :
    Ends TooBig (L.pruneFront index) fun r => ∃ j os',
      r = ({ L with log := entries (relocate 0 (keptFrom index L.log))
                    state := stateAt (relocate 0 (keptFrom index L.log)) L.state
                    os := os' }, none) ∧
      Rests os' j true (encodeAll (rewritten (keptFrom index L.log) L.state)) ∧
      OnDisk os'.dev.world.disk L.logPathname L.logTempPathname j
        (encodeAll (rewritten (keptFrom index L.log) L.state)) ∧
      ∃ ds, os'.dev.world.past = ds ++ L.os.dev.world.past ∧
        ∀ d ∈ ds, OnDisk d L.logPathname L.logTempPathname i (encodeAll fs) := by
  rw [pruneFront_cuts L hcuts]
  refine (rewrite_rests (L := { L with log := keptFrom index L.log }) h.paths hr h.disk).bind ?_
  rintro _ ⟨j, os', rfl, hr', hd', hds⟩
  exact .ok ⟨j, os', rfl, hr', hd', hds⟩

theorem holds_rewritten (h : Inv q z L i fs) (index : UInt64) :
    Holds q L.self (entries (relocate 0 (keptFrom index L.log)))
      (rewritten (keptFrom index L.log) L.state) := by
  have hsub : (keptFrom index L.log).Sublist L.log := List.dropWhile_sublist _
  refine holds_relocate ?_ ?_ h.owner rfl
  · intro hq
    have hchain := (h.file.exact hq).2
    rw [← List.takeWhile_append_dropWhile (p := fun e => e.index < index) (l := L.log)] at hchain
    exact hchain.right_of_append
  · exact fun e he => h.file.small e ((hsub.trans h.file.sub).subset he)

/-- The file after `prune_front( index )`. -/
def Log.cutFrontFile (L : Log) (index : UInt64) (fs : List Frame) : List Frame :=
  if L.cutsFront index then rewritten (keptFrom index L.log) L.state else fs

def Log.cutFrontPhase (L : Log) (index : UInt64) (ph : Phase) : Phase :=
  if L.cutsFront index then .reopened else ph

/-- A closed stream cannot be closed again. -/
theorem pruneFront_shut (hshut : Shut L.os) (hclean : L.os.dirty = false) {index : UInt64}
    (hcuts : L.cutsFront index = true) : L.pruneFront index = .error (.errno .badf) := by
  have hclose : Obfilebuf.close L.os = .error (.errno .badf) := by
    rw [Obfilebuf.close, flush_of_clean hclean]
    show (descriptor L.os >>= _) = _
    rw [descriptor, hshut.fd]
    rfl
  rw [pruneFront_cuts L hcuts, Log.rewrite]
  show ((Obfilebuf.close L.os >>= _) >>= _) = _
  rw [hclose]
  rfl

theorem pruneFront_spec (h : Inv q z L i fs) (hph : ph.Admits L.os) (hlog : L.log ≠ [])
    (index : UInt64) :
    Ends IsErrno (L.pruneFront index) fun r => ∃ j,
      Inv q z r.1 j (L.cutFrontFile index fs) ∧ (L.cutFrontPhase index ph).Admits r.1.os ∧
      (r.1.state.term, r.1.state.vote) = (L.state.term, L.state.vote) := by
  unfold Log.cutFrontFile Log.cutFrontPhase
  by_cases hcuts : L.cutsFront index = true
  · rw [if_pos hcuts, if_pos hcuts]
    rcases h.stream with ⟨hshut, hclean⟩ | ⟨app, hr⟩
    · rw [pruneFront_shut hshut hclean hcuts]
      exact .error ⟨_, rfl⟩
    · refine ((pruneFront_rests h hr hcuts).allow fun _ => isErrno_of_tooBig).imp ?_
      rintro _ ⟨j, os', rfl, hr', hd', -⟩
      exact ⟨j, ⟨h.site, h.paths, h.owner, holds_rewritten h index, hd', .inr ⟨true, hr'⟩⟩,
        .reopened hr', rfl⟩
  · rw [if_neg hcuts, if_neg hcuts]
    obtain ⟨ks, os', err, hcall, hinv, hadm, -⟩ := pruneFront_keeps h hph hlog (by simpa using hcuts)
    rw [hcall]
    exact .ok ⟨i, hinv, hadm, rfl⟩

/-! ### Starting -/

theorem lastState_concat (d : UInt64 × UInt64) (fs : List Frame) (s : ReplicantState) :
    lastState d (fs ++ [.replicantState s]) = (s.term, s.vote) := by
  rw [lastState_append]
  rfl

/-- The temporary file is gone. -/
theorem removeTemp_spec (L : Log) (hwf : L.world.disk.WF) :
    ∃ w, L.removeTemp = L.setWorld w ∧ w.disk.WF ∧ w.disk.dir L.logTempPathname = none ∧
      ∀ {i c}, L.logPathname ≠ L.logTempPathname →
        OnDisk L.world.disk L.logPathname L.logTempPathname i c →
        OnDisk w.disk L.logPathname L.logTempPathname i c := by
  unfold Log.removeTemp
  split_ifs with hexists
  · refine ⟨_, rfl, World.remove_wf hwf _, Function.update_self .., ?_⟩
    intro i c hne hd
    exact hd.removed hne
  · refine ⟨L.world, rfl, hwf, ?_, fun _ hd => hd⟩
    simpa [World.fileExists] using hexists

end

section Start

variable {q : Prop} {path temp : String} {world : World String} {me : UInt64}

/-- A new log object finds in the file what is there. -/
theorem recover_spec {L : Log} {i : Nat} {fs : List Frame}
    (hd : OnDisk L.world.disk L.logPathname L.logTempPathname i (encodeAll fs))
    (hf : Holds q L.self (entries fs) fs) (hlog : L.log = []) (junk : Nat → Nat → UInt8) :
    ∃ s, L.recover junk = ({ L with state := s, log := entries fs }, none) ∧ s.self = L.self ∧
      (s.term, s.vote) = lastState (1, 0) fs := by
  let r : Recovered := ⟨L.state.clear L.self, L.log⟩
  have hfile : recoverFile junk (encodeAll fs) r = (r.replay fs, none) :=
    recoverFile_frames junk hf.fits hf.owned
  refine ⟨(r.replay fs).state, ?_, r.self_replay fs, r.state_replay fs⟩
  have hcontent : L.world.disk.content L.logPathname = some (encodeAll fs) := by
    rw [Disk.content, hd.dir, ← hd.content]
    rfl
  have hes : (r.replay fs).log = entries fs := by
    rw [r.log_replay]
    show L.log ++ entries fs = entries fs
    rw [hlog, List.nil_append]
  unfold Log.recover
  rw [hcontent]
  simp only [show recoverFile junk (encodeAll fs) ⟨L.state.clear L.self, L.log⟩ = _ from hfile, hes]
  rfl

/-- A log that recovers without an error is opened again and its state written. -/
theorem restart_of_recover {L L' : Log} {junk : Nat → Nat → UInt8} {self : UInt64}
    (h : (Log.removeTemp { L with self := self, state := L.state.clear self, log := [] }).recover junk =
      (L', none)) :
    L.restart junk self = (Obfilebuf.open_ L'.os L'.logPathname .append >>= fun os =>
      Log.writeState { L' with os := os } >>= fun L => pure (L, none)) := by
  unfold Log.restart
  simp only [h]

theorem restart_spec (id : UInt64) (hne : path ≠ temp) {i : Nat} {fs : List Frame}
    (hd : OnDisk world.disk path temp i (encodeAll fs))
    (hf : Holds q me (entries fs) fs) (junk : Nat → Nat → UInt8) :
    Ends TooBig ((Log.create id path temp world).restart junk me) fun r =>
      r.2 = none ∧ r.1.log = entries fs ∧ (r.1.state.term, r.1.state.vote) = lastState (1, 0) fs ∧
      Inv q ⟨me, path, temp⟩ r.1 i (fs ++ [.replicantState r.1.state]) ∧ Phase.reopened.Admits r.1.os := by
  let L₀ : Log := { Log.create id path temp world with
    self := me, state := (ReplicantState.create id).clear me, log := [] }
  obtain ⟨w, hremove, -, -, hkeep⟩ := removeTemp_spec L₀ hd.wf
  have hd₁ : OnDisk w.disk path temp i (encodeAll fs) := hkeep hne hd
  let L₁ : Log := L₀.setWorld w
  obtain ⟨s, hrecover, hself, hstate⟩ := recover_spec (L := L₁) hd₁ hf rfl junk
  obtain ⟨os, hopen, hr, hworld, -⟩ := open_append (s := L₁.os) rfl (show 0 < 16384 by decide) rfl hd₁.dir
    (by rw [show L₁.os.dev.world.disk.inode i = _ from hd₁.content]; exact hd₁.bound)
  rw [show L₁.os.dev.world.disk.inode i = _ from hd₁.content] at hr
  have hd₂ : OnDisk os.dev.world.disk path temp i (encodeAll fs) := by
    rw [hworld]
    exact hd₁
  have hstart : L₀.removeTemp.recover junk = ({ L₁ with state := s, log := entries fs }, none) := by
    rw [hremove, hrecover]
  rw [restart_of_recover hstart]
  refine Ends.after hopen ?_
  have hat : AtEnd { L₁ with state := s, log := entries fs, os := os }.os i true (encodeAll fs) :=
    hr.atEnd ((Phase.Admits.reopened hr).aligned (by decide))
  refine (writeState_atEnd hat).bind ?_
  rintro _ ⟨os', rfl, hr', -, ht⟩
  refine .ok ⟨rfl, rfl, hstate, ?_, .reopened hr'⟩
  exact {
    site := rfl
    paths := hne
    owner := hself
    file := hf.add_state hself rfl
    disk := hd₂.of_same ht.disk hr'.content hr'.bound
    stream := .inr ⟨true, hr'⟩ }

/-- `initialise` leaves a file with the hard state alone. -/
theorem initialise_spec (hne : path ≠ temp) (hwf : world.disk.WF) (t v : UInt64) :
    Ends TooBig ((Log.create me path temp world).initialise me t v) fun L =>
      ∃ i, Inv q ⟨me, path, temp⟩ L i
          [.replicantState (stateAt [] ((ReplicantState.create me).update t v))] ∧
        (L.state.term, L.state.vote) = (t, v) ∧ L.log = [] ∧ Phase.fresh.Admits L.os := by
  unfold Log.initialise
  have hstate : (((ReplicantState.create me).update t v).term,
      ((ReplicantState.create me).update t v).vote) = (t, v) := by simp
  have hself : ((ReplicantState.create me).update t v).self = me := by simp [ReplicantState.create]
  rw [show (Log.create me path temp world).state = .create me from rfl]
  generalize (ReplicantState.create me).update t v = s₀ at hstate hself
  let L₀ : Log := { Log.create me path temp world with self := me, state := s₀, log := [] }
  obtain ⟨w, hremove, hwf₁, hnone, -⟩ := removeTemp_spec L₀ hwf
  let L₁ : Log := L₀.setWorld w
  obtain ⟨os, i, hopen, hr, ha, hemptied, -⟩ := open_truncate (s := L₁.os) rfl (show 0 < 16384 by decide) rfl path
  have hd : OnDisk os.dev.world.disk path temp i [] := {
    wf := hemptied.wf hwf₁
    dir := by rw [hemptied.dir, Function.update_self]
    temp := by
      rw [hemptied.dir, Function.update_of_ne hne.symm]
      show w.disk.dir temp ≠ some i
      rw [show w.disk.dir temp = none from hnone]
      exact fun hi => nomatch hi
    content := hr.content
    bound := Nat.zero_le _ }
  show Ends TooBig (Obfilebuf.open_ L₀.removeTemp.os L₀.removeTemp.logPathname .truncate >>= _) _
  rw [hremove]
  refine Ends.after hopen ?_
  have hat : AtEnd { L₁ with os := os }.os i false (encodeAll []) := hr.atEnd ha
  refine (writeState_atEnd hat).imp ?_
  rintro _ ⟨os', rfl, hr', ha', ht⟩
  refine ⟨i, ?_, hstate, rfl, ha'⟩
  exact {
    site := rfl
    paths := hne
    owner := hself
    file := (Holds.nil q me).add_state hself rfl
    disk := hd.of_same ht.disk hr'.content hr'.bound
    stream := .inr ⟨false, hr'⟩ }

end Start

end Nodeoze.Raft
