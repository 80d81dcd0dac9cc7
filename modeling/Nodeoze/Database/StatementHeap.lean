import Nodeoze.Database.Statements

/-!
# The blocks of the statements

A statement that is not finalized is the one of exactly one block, and a block with a statement finalizes
it when it goes.  What is done with handles keeps this, whatever the handles are, also when a handle is
assigned to itself.
-/

namespace Nodeoze.Database.Statements

open RefHeap Runs

structure Owned (H : RefHeap Unit Shared) (stmts : Nat → Option Nat) (next : Nat) : Prop where
  counted : H.Counted
  owner : ∀ {b t n}, H.tagOf b = some t → t.stmt = some n → t.finalize = true ∧ stmts n ≠ none
  unique : ∀ {b b' t t' n}, H.tagOf b = some t → t.stmt = some n → H.tagOf b' = some t' →
    t'.stmt = some n → b = b'
  owned : ∀ {n}, stmts n ≠ none → ∃ b t, H.tagOf b = some t ∧ t.stmt = some n
  fresh : ∀ {n}, next ≤ n → stmts n = none

abbrev Safe (s : State) : Prop := Owned s.heap s.stmts s.nextStmt

/-- Handle `i` is on the block of statement `n`. -/
def State.Owns (s : State) (i n : Nat) : Prop :=
  ∃ b t, s.heap.blockOf i = some b ∧ s.heap.tagOf b = some t ∧ t.stmt = some n

/-- The handles outside `P` are on the same blocks; the blocks outside `R` are as reentrant as they were, and
no statement outside `N` is gone. -/
structure Keeps (P N R : Nat → Prop) (s s' : State) : Prop where
  nowhere : ∀ {j}, ¬P j → s.heap.blockOf j = none → s'.heap.blockOf j = none
  on : ∀ {j b t}, ¬P j → s.heap.blockOf j = some b → s.heap.tagOf b = some t →
    ∃ t', s'.heap.blockOf j = some b ∧ s'.heap.tagOf b = some t' ∧
      (¬R b → t'.reentrant = t.reentrant) ∧ ∀ n, ¬N n → (t'.stmt = some n ↔ t.stmt = some n)
  stmts : ∀ {j n}, ¬P j → ¬N n → s.Owns j n → s'.stmts n = s.stmts n

def Nothing (_ : Nat) : Prop := False

section

variable {P N R : Nat → Prop} {s s' s'' : State}

theorem Keeps.refl (s : State) : Keeps P N R s s :=
  ⟨fun _ h => h, fun _ hb ht => ⟨_, hb, ht, fun _ => rfl, fun _ _ => Iff.rfl⟩, fun _ _ _ => rfl⟩

theorem Keeps.owns (h : Keeps P N R s s') {j n : Nat} (hj : ¬P j) (hn : ¬N n) (hown : s.Owns j n) :
    s'.Owns j n := by
  obtain ⟨b, t, hb, ht, hstmt⟩ := hown
  obtain ⟨t', hb', ht', -, hkeep⟩ := h.on hj hb ht
  exact ⟨b, t', hb', ht', (hkeep n hn).mpr hstmt⟩

theorem Keeps.blockOf (h : Keeps P N R s s') (hs : s.heap.Counted) {j : Nat} (hj : ¬P j) :
    s'.heap.blockOf j = s.heap.blockOf j := by
  cases hb : s.heap.blockOf j with
  | none => exact h.nowhere hj hb
  | some b =>
    obtain ⟨t, ht⟩ := hs.tag hb
    obtain ⟨-, hb', -⟩ := h.on hj hb ht
    exact hb'

theorem Keeps.trans (h : Keeps P N R s s') (h' : Keeps P N R s' s'') : Keeps P N R s s'' where
  nowhere hj hnone := h'.nowhere hj (h.nowhere hj hnone)
  on hj hb ht := by
    obtain ⟨t', hb', ht', hreentrant, hstmt⟩ := h.on hj hb ht
    obtain ⟨t'', hb'', ht'', hreentrant', hstmt'⟩ := h'.on hj hb' ht'
    exact ⟨t'', hb'', ht'', fun hR => (hreentrant' hR).trans (hreentrant hR),
      fun n hn => (hstmt' n hn).trans (hstmt n hn)⟩
  stmts hj hn hown := (h'.stmts hj hn (h.owns hj hn hown)).trans (h.stmts hj hn hown)

theorem Keeps.mono {P' N' R' : Nat → Prop} (h : Keeps P N R s s') (hP : ∀ j, P j → P' j)
    (hN : ∀ n, N n → N' n) (hR : ∀ b, R b → R' b) : Keeps P' N' R' s s' where
  nowhere hj hnone := h.nowhere (fun hp => hj (hP _ hp)) hnone
  on hj hb ht := by
    obtain ⟨t', hb', ht', hreentrant, hstmt⟩ := h.on (fun hp => hj (hP _ hp)) hb ht
    exact ⟨t', hb', ht', fun hr => hreentrant fun hp => hr (hR _ hp), fun n hn => hstmt n fun hp => hn (hN _ hp)⟩
  stmts hj hn hown := h.stmts (fun hp => hj (hP _ hp)) (fun hp => hn (hN _ hp)) hown

end

section

variable {s : State} {i j : Nat}

theorem deref_null (hi : s.heap.blockOf i = none) : deref s i = .error .null := by
  rw [deref, hi]

theorem deref_eq {b : Nat} {t : Shared} (hb : s.heap.blockOf i = some b) (ht : s.heap.tagOf b = some t) :
    deref s i = .ok (b, t) := by
  rw [deref, hb]
  simp only [ht]

theorem Owned.deref (o : Safe s) : (s.heap.blockOf i = none ∧ deref s i = .error .null) ∨
    ∃ b t, s.heap.blockOf i = some b ∧ s.heap.tagOf b = some t ∧ deref s i = .ok (b, t) := by
  cases hb : s.heap.blockOf i with
  | none => exact .inl ⟨rfl, deref_null hb⟩
  | some b =>
    obtain ⟨t, ht⟩ := o.counted.tag hb
    exact .inr ⟨b, t, rfl, ht, deref_eq hb ht⟩

theorem Owned.use (o : Safe s) {b n : Nat} {t : Shared} (ht : s.heap.tagOf b = some t) (hn : t.stmt = some n) :
    sqlite3Use s n = .ok () := by
  rw [sqlite3Use, if_neg (o.owner ht hn).2]

/-! ## Changing a block -/

/-- A block may change but for its statement. -/
theorem Owned.setShared (o : Safe s) {b : Nat} {t t' : Shared} (ht : s.heap.tagOf b = some t) (hstmt : t'.stmt = t.stmt)
    (hfinalize : t'.finalize = t.finalize) : Safe (Statements.setShared s b t') := by
  have htag : ∀ {c u}, (s.heap.retag b t').tagOf c = some u →
      ∃ v, s.heap.tagOf c = some v ∧ u.stmt = v.stmt ∧ u.finalize = v.finalize := by
    intro c u hu
    rw [tagOf_retag ht] at hu
    split_ifs at hu with hc
    · rw [← Option.some.inj hu, hc]
      exact ⟨t, ht, hstmt, hfinalize⟩
    · exact ⟨u, hu, rfl, rfl⟩
  refine ⟨o.counted.retag b t', ?_, ?_, ?_, o.fresh⟩
  · intro c u n hu hn
    obtain ⟨v, hv, hs, hf⟩ := htag hu
    rw [hf]
    exact o.owner hv (hs ▸ hn)
  · intro c c' u u' n hu hn hu' hn'
    obtain ⟨v, hv, hs, -⟩ := htag hu
    obtain ⟨v', hv', hs', -⟩ := htag hu'
    exact o.unique hv (hs ▸ hn) hv' (hs' ▸ hn')
  · intro n hn
    obtain ⟨c, u, hu, hs⟩ := o.owned hn
    by_cases hc : c = b
    · refine ⟨b, t', by rw [Statements.setShared, tagOf_retag ht, if_pos rfl], ?_⟩
      obtain rfl : u = t := Option.some.inj (hu.symm.trans (hc ▸ ht))
      rw [hstmt, hs]
    · exact ⟨c, u, by rw [Statements.setShared, tagOf_retag ht, if_neg hc, hu], hs⟩

theorem keeps_setShared {b : Nat} {t t' : Shared} (ht : s.heap.tagOf b = some t)
    (hstmt : t'.stmt = t.stmt) {R : Nat → Prop} (hR : ¬R b → t'.reentrant = t.reentrant) :
    Keeps Nothing Nothing R s (Statements.setShared s b t') where
  nowhere _ hnone := (blockOf_retag _ _ _).trans hnone
  on {j c u} _ hc hu := by
    refine ⟨if c = b then t' else u, (blockOf_retag _ _ _).trans hc, ?_⟩
    rw [Statements.setShared, tagOf_retag ht]
    split_ifs with hcb
    · obtain rfl : u = t := Option.some.inj (hu.symm.trans (hcb ▸ ht))
      exact ⟨rfl, fun h => hR (hcb ▸ h), fun n _ => by rw [hstmt]⟩
    · exact ⟨hu, fun _ => rfl, fun n _ => Iff.rfl⟩
  stmts _ _ _ := rfl

/-- A statement is finalized, and its block is without one. -/
theorem Owned.finalized (o : Safe s) {b n : Nat} {t : Shared} (ht : s.heap.tagOf b = some t)
    (hn : t.stmt = some n) :
    Safe (Statements.setShared { s with stmts := Function.update s.stmts n none } b { t with stmt := none }) := by
  have htag : ∀ {c u m}, (s.heap.retag b { t with stmt := none }).tagOf c = some u → u.stmt = some m →
      s.heap.tagOf c = some u ∧ m ≠ n := by
    intro c u m hu hm
    rw [tagOf_retag ht] at hu
    split_ifs at hu with hc
    · rw [← Option.some.inj hu] at hm
      contradiction
    · refine ⟨hu, ?_⟩
      rintro rfl
      exact hc (o.unique hu hm ht hn)
  refine ⟨o.counted.retag b _, ?_, ?_, ?_, ?_⟩
  · intro c u m hu hm
    obtain ⟨hu', hne⟩ := htag hu hm
    obtain ⟨hfinalize, hlive⟩ := o.owner hu' hm
    refine ⟨hfinalize, ?_⟩
    change Function.update s.stmts n none m ≠ none
    rwa [Function.update_of_ne hne]
  · intro c c' u u' m hu hm hu' hm'
    exact o.unique (htag hu hm).1 hm (htag hu' hm').1 hm'
  · intro m hm
    change Function.update s.stmts n none m ≠ none at hm
    by_cases hmn : m = n
    · rw [hmn, Function.update_self] at hm
      contradiction
    · rw [Function.update_of_ne hmn] at hm
      obtain ⟨c, u, hu, hs⟩ := o.owned hm
      refine ⟨c, u, ?_, hs⟩
      rw [Statements.setShared, tagOf_retag ht, if_neg, hu]
      rintro rfl
      rw [hu] at ht
      obtain rfl := Option.some.inj ht
      exact hmn (Option.some.inj (hs.symm.trans hn))
  · intro m hm
    change Function.update s.stmts n none m = none
    rw [Function.update_apply]
    split_ifs
    · rfl
    · exact o.fresh hm

theorem keeps_finalized {b n : Nat} {t : Shared} (ht : s.heap.tagOf b = some t) (hn : t.stmt = some n) :
    Keeps Nothing (· = n) Nothing s
      (Statements.setShared { s with stmts := Function.update s.stmts n none } b { t with stmt := none }) where
  nowhere _ hnone := (blockOf_retag _ _ _).trans hnone
  on {j c u} _ hc hu := by
    refine ⟨if c = b then { t with stmt := none } else u, (blockOf_retag _ _ _).trans hc, ?_⟩
    change (s.heap.retag b _).tagOf c = _ ∧ _
    rw [tagOf_retag ht]
    split_ifs with hcb
    · obtain rfl : u = t := Option.some.inj (hu.symm.trans (hcb ▸ ht))
      refine ⟨rfl, fun _ => rfl, fun m hm => ⟨(fun hs => nomatch hs), fun hs => ?_⟩⟩
      exact absurd (Option.some.inj (hs.symm.trans hn)) hm
    · exact ⟨hu, fun _ => rfl, fun n _ => Iff.rfl⟩
  stmts {_ m} _ hm _ := by
    change Function.update s.stmts n none m = _
    rw [Function.update_of_ne hm]

/-! ## Handles that go -/

/-- A handle other than `i` is on the block of statement `n`. -/
def Other (s : State) (i n : Nat) : Prop := ∃ j, j ≠ i ∧ s.Owns j n

/-- When a handle goes, the statements that are left are those of the others. -/
theorem Owned.detach (o : Safe s) {b : Nat} (hb : s.heap.blockOf i = some b) (stmts : Nat → Option Nat)
    (hleft : ∀ n, Other s i n → stmts n = s.stmts n) (hgone : ∀ n, ¬Other s i n → stmts n = none) :
    Safe { s with heap := s.heap.detach i, stmts := stmts } ∧
      Keeps (· = i) Nothing Nothing s { s with heap := s.heap.detach i, stmts := stmts } := by
  have htag := o.counted.tagOf_detach hb
  have hother : ∀ {c u n}, (s.heap.detach i).tagOf c = some u → u.stmt = some n → Other s i n := by
    intro c u n hu hn
    obtain ⟨hu, j, hne, hj⟩ := (htag c u).mp hu
    exact ⟨j, hne, c, u, hj, hu, hn⟩
  refine ⟨⟨o.counted.detach hb, ?_, ?_, ?_, ?_⟩, ?_, ?_, ?_⟩
  · intro c u n hu hn
    obtain ⟨hfinalize, hlive⟩ := o.owner ((htag c u).mp hu).1 hn
    change _ ∧ stmts n ≠ none
    rw [hleft n (hother hu hn)]
    exact ⟨hfinalize, hlive⟩
  · intro c c' u u' n hu hn hu' hn'
    exact o.unique ((htag c u).mp hu).1 hn ((htag c' u').mp hu').1 hn'
  · intro n hn
    have hsome : Other s i n := by
      by_contra h
      exact hn (hgone n h)
    obtain ⟨j, hne, c, u, hj, hu, hs⟩ := hsome
    exact ⟨c, u, (htag c u).mpr ⟨hu, j, hne, hj⟩, hs⟩
  · intro n hn
    by_cases h : Other s i n
    · exact (hleft n h).trans (o.fresh hn)
    · exact hgone n h
  · intro j hj hnone
    change (s.heap.detach i).blockOf j = none
    rw [blockOf_detach, if_neg hj, hnone]
  · intro j c u hj hc hu
    refine ⟨u, ?_, (htag c u).mpr ⟨hu, j, hj, hc⟩, fun _ => rfl, fun n _ => Iff.rfl⟩
    change (s.heap.detach i).blockOf j = some c
    rw [blockOf_detach, if_neg hj, hc]
  · intro j n hj _ hown
    exact hleft n ⟨j, hj, hown⟩

/-- A statement that no other handle is on is the one of the handle. -/
theorem Owned.only (o : Safe s) {n : Nat} (hn : s.stmts n ≠ none) (h : ¬Other s i n) : s.Owns i n := by
  obtain ⟨c, u, hu, hs⟩ := o.owned hn
  obtain ⟨j, hj⟩ := o.counted.held c u hu
  by_cases hji : j = i
  · exact ⟨c, u, hji ▸ hj, hu, hs⟩
  · exact absurd ⟨j, hji, c, u, hj, hu, hs⟩ h

/-- The last handle finalizes the statement; whatever handle goes, what is left is safe. -/
theorem Owned.destroy (o : Safe s) (i : Nat) :
    ∃ s', Statements.destroy s i = .ok s' ∧ Safe s' ∧ Keeps (· = i) Nothing Nothing s s' ∧
      s'.heap.blockOf i = none ∧ s' = { s with heap := s'.heap, stmts := s'.stmts } ∧
      s'.heap.slots = s.heap.slots := by
  cases hi : s.heap.bufs i with
  | none =>
    refine ⟨s, ?_, o, Keeps.refl s, by rw [blockOf, hi, Option.map_none], rfl, rfl⟩
    rw [Statements.destroy, unshare, hi]
    change Except.ok _ = _
    rw [setBuf, ← hi, Function.update_eq_self]
  | some k =>
    have hb : s.heap.blockOf i = some k.blk := by rw [blockOf, hi, Option.map_some]
    obtain ⟨B, hB, -⟩ := o.counted.wf.live i k hi
    have ht : s.heap.tagOf k.blk = some B.tag := by rw [tagOf, hB, Option.map_some]
    have hdetach : (s.heap.release k.blk).setBuf i none = s.heap.detach i := (detach_eq hi).symm
    have hagain : (s.heap.detach i).setBuf i none = s.heap.detach i := by
      rw [detach_eq hi, setBuf, setBuf]
      simp only [Function.update_idem]
    have hslots : (s.heap.detach i).slots = s.heap.slots := by
      rw [detach_eq hi]
      exact release_slots _
    have hnone : (s.heap.detach i).blockOf i = none := by rw [blockOf_detach, if_pos rfl]
    have howns : ∀ {n}, s.Owns i n → B.tag.stmt = some n := by
      rintro n ⟨c, u, hc, hu, hn⟩
      obtain rfl := Option.some.inj (hb.symm.trans hc)
      rwa [Option.some.inj (ht.symm.trans hu)]
    by_cases hone : B.refs = 1
    · have hlast := (o.counted.refs_eq_one hb hB).mp hone
      have hnot : ∀ {n}, B.tag.stmt = some n → ¬Other s i n := by
        rintro n hn ⟨j, hne, c, u, hc, hu, hs⟩
        exact hne (hlast j (o.unique hu hs ht hn ▸ hc))
      cases hstmt : B.tag.stmt with
      | none =>
        obtain ⟨hsafe, hkeeps⟩ := o.detach hb s.stmts (fun _ _ => rfl) fun n hn => by
          by_contra hlive
          rw [howns (o.only hlive hn)] at hstmt
          contradiction
        refine ⟨_, ?_, hsafe, hkeeps, hnone, rfl, hslots⟩
        rw [Statements.destroy, unshare, hi]
        simp only [hB, if_pos hone, hstmt, sqlite3Finalize, ite_self]
        change Except.ok { s with heap := (s.heap.detach i).setBuf i none } = _
        rw [hagain]
      | some n =>
        obtain ⟨hfinalize, hlive⟩ := o.owner ht hstmt
        obtain ⟨hsafe, hkeeps⟩ := o.detach hb (Function.update s.stmts n none)
          (fun m hm => by
            rw [Function.update_of_ne]
            rintro rfl
            exact hnot hstmt hm)
          fun m hm => by
            by_contra hne
            rw [Function.update_apply] at hne
            split_ifs at hne with hmn
            · exact hne rfl
            · exact hmn (Option.some.inj ((howns (o.only hne hm)).symm.trans hstmt))
        refine ⟨_, ?_, hsafe, hkeeps, hnone, rfl, hslots⟩
        rw [Statements.destroy, unshare, hi]
        simp only [hB, if_pos hone, hstmt, sqlite3Finalize, if_pos hfinalize, if_neg hlive]
        change Except.ok { s with heap := (s.heap.detach i).setBuf i none, stmts := _ } = _
        rw [hagain]
    · obtain ⟨hsafe, hkeeps⟩ := o.detach hb s.stmts (fun _ _ => rfl) fun n hn => by
        by_contra hlive
        have hn' := howns (o.only hlive hn)
        rw [o.counted.refs_eq_one hb hB, not_forall] at hone
        obtain ⟨j, hj⟩ := hone
        rw [Classical.not_imp] at hj
        exact hn ⟨j, hj.2, _, _, hj.1, ht, hn'⟩
      refine ⟨_, ?_, hsafe, hkeeps, hnone, rfl, hslots⟩
      rw [Statements.destroy, unshare, hi]
      simp only [hB, if_neg hone]
      change Except.ok { s with heap := (s.heap.release k.blk).setBuf i none } = _
      rw [hdetach]

/-! ## Handles that come -/

theorem Owned.of_tags {H : RefHeap Unit Shared} (o : Safe s) (hcounted : H.Counted)
    (htags : ∀ b, H.tagOf b = s.heap.tagOf b) : Owned H s.stmts s.nextStmt where
  counted := hcounted
  owner ht hn := o.owner (htags _ ▸ ht) hn
  unique ht hn ht' hn' := o.unique (htags _ ▸ ht) hn (htags _ ▸ ht') hn'
  owned hn := by
    obtain ⟨b, t, ht, hs⟩ := o.owned hn
    exact ⟨b, t, (htags b).trans ht, hs⟩
  fresh := o.fresh

theorem Keeps.of_tags {P N R : Nat → Prop} {H : RefHeap Unit Shared}
    (hblocks : ∀ l, ¬P l → H.blockOf l = s.heap.blockOf l) (htags : ∀ b, H.tagOf b = s.heap.tagOf b) :
    Keeps P N R s { s with heap := H } where
  nowhere hj hnone := (hblocks _ hj).trans hnone
  on hj hb ht := ⟨_, (hblocks _ hj).trans hb, (htags _).trans ht, fun _ => rfl, fun _ _ => Iff.rfl⟩
  stmts _ _ _ := rfl

/-- The changes of an operation on handles: those outside `P` stay, and only blocks and statements go. -/
structure Handles (P N R : Nat → Prop) (s s' : State) : Prop where
  safe : Safe s'
  keeps : Keeps P N R s s'
  rest : s' = { s with heap := s'.heap, stmts := s'.stmts }
  slots : s'.heap.slots = s.heap.slots

theorem setBuf_none (hi : s.heap.bufs i = none) : s.heap.setBuf i none = s.heap := by
  rw [setBuf, ← hi, Function.update_eq_self]

theorem setBuf_self_none (H : RefHeap Unit Shared) (k : Option Handle) :
    (H.setBuf i k).setBuf i none = H.setBuf i none := by
  simp only [setBuf, Function.update_idem]

theorem Owned.share (o : Safe s) (hi : i < s.heap.slots) (hnone : s.heap.blockOf i = none) (j : Nat) :
    Handles (· = i) Nothing Nothing s (Statements.share s i j) ∧
      (Statements.share s i j).heap.blockOf i = s.heap.blockOf j ∧
      (Statements.share s i j).nextStmt = s.nextStmt := by
  cases hj : s.heap.bufs j with
  | none =>
    have hsame : Statements.share s i j = s := by
      rw [Statements.share, hj]
      change { s with heap := s.heap.setBuf i none } = s
      rw [setBuf_none (Option.map_eq_none_iff.mp hnone)]
    rw [hsame]
    exact ⟨⟨o, Keeps.refl s, rfl, rfl⟩, by rw [hnone, blockOf, hj, Option.map_none], rfl⟩
  | some k =>
    obtain ⟨B, hB, -⟩ := o.counted.wf.live j k hj
    have heq : Statements.share s i j = { s with heap := s.heap.share i k } := by
      rw [Statements.share, hj]
    rw [heq]
    refine ⟨⟨o.of_tags (o.counted.share hi hnone hj) fun b => tagOf_share hB, ?_, rfl, ?_⟩, ?_, rfl⟩
    · apply Keeps.of_tags
      · intro l hl
        rw [blockOf_share hB, if_neg hl]
      · intro b
        exact tagOf_share hB
    · change (s.heap.share i k).slots = s.heap.slots
      rw [share_eq hB]
      rfl
    · change (s.heap.share i k).blockOf i = _
      rw [blockOf_share hB, if_pos rfl, blockOf, hj, Option.map_some]

/-- A handle goes to an empty slot. -/
theorem Owned.transfer (o : Safe s) (hi : i < s.heap.slots) (hnone : s.heap.blockOf i = none) (hne : i ≠ j) :
    Handles (fun l => l = i ∨ l = j) Nothing Nothing s { s with heap := s.heap.transfer i j } := by
  have hblocks : ∀ l, ¬(l = i ∨ l = j) → (s.heap.transfer i j).blockOf l = s.heap.blockOf l := by
    intro l hl
    rw [blockOf_transfer, if_neg fun h => hl (.inr h), if_neg fun h => hl (.inl h)]
  cases hj : s.heap.blockOf j with
  | none =>
    have hsame : s.heap.transfer i j = s.heap := by
      have hbufs : s.heap.bufs j = none := Option.map_eq_none_iff.mp hj
      rw [RefHeap.transfer, hbufs, setBuf_none (Option.map_eq_none_iff.mp hnone), setBuf_none hbufs]
    rw [hsame]
    exact ⟨o, Keeps.refl s, rfl, rfl⟩
  | some b =>
    obtain ⟨hcounted, htags⟩ := o.counted.transfer hne hi hnone hj
    exact ⟨o.of_tags hcounted htags, Keeps.of_tags hblocks htags, rfl, rfl⟩

theorem destroy_ok {s' : State} (h : Statements.destroy s i = .ok s') :
    ∃ s₁, unshare s i = .ok s₁ ∧ s' = { s₁ with heap := s₁.heap.setBuf i none } := by
  rw [Statements.destroy] at h
  cases hs : unshare s i with
  | error f =>
    rw [hs] at h
    contradiction
  | ok s₁ =>
    rw [hs] at h
    exact ⟨s₁, rfl, (Except.ok.inj h).symm⟩

theorem Owned.handles_destroy (o : Safe s) (i : Nat) :
    ∃ s', Statements.destroy s i = .ok s' ∧ Handles (· = i) Nothing Nothing s s' ∧ s'.heap.blockOf i = none := by
  obtain ⟨s', hdestroy, hsafe, hkeeps, hnone, hrest, hslots⟩ := o.destroy i
  exact ⟨s', hdestroy, ⟨hsafe, hkeeps, hrest, hslots⟩, hnone⟩

theorem Handles.trans {P N R : Nat → Prop} {s' s'' : State} (h : Handles P N R s s')
    (h' : Handles P N R s' s'') : Handles P N R s s'' where
  safe := h'.safe
  keeps := h.keeps.trans h'.keeps
  rest := by
    rw [h'.rest, h.rest]
  slots := h'.slots.trans h.slots

theorem Handles.mono {P P' N R : Nat → Prop} {s' : State} (h : Handles P N R s s') (hP : ∀ j, P j → P' j) :
    Handles P' N R s s' :=
  { h with keeps := h.keeps.mono hP (fun _ h => h) fun _ h => h }

/-- A handle that is left on its block is not the last one there. -/
theorem unshare_ok {s₁ : State} (h : unshare s i = .ok s₁) :
    s₁.heap.bufs i = none ∨ ∃ k B, s.heap.bufs i = some k ∧ s.heap.blks k.blk = some B ∧ B.refs ≠ 1 ∧
      s₁ = { s with heap := s.heap.release k.blk } := by
  have hnone : ∀ k, s.heap.bufs i = some k → (s.heap.detach i).bufs i = none := by
    intro k hk
    rw [detach_eq hk]
    exact Function.update_self _ _ _
  rw [unshare] at h
  split at h
  · rename_i hi
    obtain rfl := Except.ok.inj h
    exact .inl hi
  · rename_i k hk
    split at h
    · contradiction
    · rename_i B hB
      split_ifs at h with hone hfinalize
      · cases hstmt : B.tag.stmt with
        | none =>
          rw [hstmt] at h
          obtain rfl := Except.ok.inj h
          exact .inl (hnone k hk)
        | some n =>
          rw [hstmt, sqlite3Finalize] at h
          split_ifs at h with hlive
          · contradiction
          · obtain rfl := Except.ok.inj h
            exact .inl (hnone k hk)
      · obtain rfl := Except.ok.inj h
        exact .inl (hnone k hk)
      · exact .inr ⟨k, B, hk, hB, hone, (Except.ok.inj h).symm⟩

/-- A block that is given up and taken again is as it was. -/
theorem Owned.share_release (o : Safe s) {k : Handle} {B : Block Unit Shared} (hk : s.heap.bufs i = some k)
    (hB : s.heap.blks k.blk = some B) (hrefs : B.refs ≠ 1) :
    Statements.share { s with heap := s.heap.release k.blk } i i = s := by
  have hbufs : (s.heap.release k.blk).bufs i = some k := by rw [release_bufs, hk]
  have hblks : (s.heap.release k.blk).blks k.blk = some { B with refs := B.refs - 1 } := by
    rw [release_blks_self hB, if_neg hrefs]
  have hpos : 1 ≤ B.refs := by
    have hcount := s.heap.on_le_count (o.counted.wf.lt_slots hk) k.blk
    rw [hk, on, if_pos rfl] at hcount
    rw [o.counted.wf.counted _ _ hB]
    exact hcount
  have hheap : (s.heap.release k.blk).share i k = s.heap := by
    rw [share_eq hblks, release, hB]
    simp only [if_neg hrefs, setBlk, setBuf, Function.update_idem, Nat.sub_add_cancel hpos]
    rw [← hB, Function.update_eq_self, ← hk, Function.update_eq_self]
  rw [Statements.share]
  simp only [hbufs, hheap]

theorem share_setBuf (hne : i ≠ j) (hlive : ∀ k, s.heap.bufs j = some k → ∃ B, s.heap.blks k.blk = some B) :
    Statements.share { s with heap := s.heap.setBuf i none } i j = Statements.share s i j := by
  have hbufs : (s.heap.setBuf i none).bufs j = s.heap.bufs j := Function.update_of_ne hne.symm _ _
  rw [Statements.share, Statements.share]
  simp only [hbufs]
  cases hj : s.heap.bufs j with
  | none => simp only [setBuf, Function.update_idem]
  | some k =>
    obtain ⟨B, hB⟩ := hlive k hj
    simp only [RefHeap.share, setBuf, setBlk, hB, Function.update_idem]

/-- `copy`, also of a handle to itself: the last one of its block is left without a block. -/
theorem Owned.copy (o : Safe s) (hi : i < s.heap.slots) (j : Nat) :
    ∃ s', Statements.copy s i j = .ok s' ∧ Handles (· = i) Nothing Nothing s s' := by
  obtain ⟨s', hdestroy, hhandles, hnone⟩ := o.handles_destroy i
  obtain ⟨s₁, hunshare, rfl⟩ := destroy_ok hdestroy
  have hcopy : Statements.copy s i j = .ok (Statements.share s₁ i j) := by
    rw [Statements.copy, hunshare]
    rfl
  by_cases hij : i = j
  · subst hij
    cases hbuf : s₁.heap.bufs i with
    | none =>
      refine ⟨_, hcopy, ?_⟩
      have heq : Statements.share s₁ i i = { s₁ with heap := s₁.heap.setBuf i none } := by
        rw [Statements.share, hbuf]
      rw [heq]
      exact hhandles
    | some k =>
      -- Another handle is on the block, which is given up and taken again.
      rcases unshare_ok hunshare with hnone' | ⟨k', B, hk, hB, hrefs, rfl⟩
      · rw [hbuf] at hnone'
        contradiction
      · refine ⟨s, ?_, o, Keeps.refl s, rfl, rfl⟩
        rw [hcopy, o.share_release hk hB hrefs]
  · have hlive : ∀ k, s₁.heap.bufs j = some k → ∃ B, s₁.heap.blks k.blk = some B := by
      intro k hk
      obtain ⟨B, hB, -⟩ := hhandles.safe.counted.wf.live j k ((Function.update_of_ne (Ne.symm hij) _ _).trans hk)
      exact ⟨B, hB⟩
    rw [← share_setBuf hij hlive] at hcopy
    exact ⟨_, hcopy, hhandles.trans (hhandles.safe.share (hhandles.slots ▸ hi) hnone j).1⟩

/-- `move`, also of a handle to itself. -/
theorem Owned.move (o : Safe s) (hi : i < s.heap.slots) (j : Nat) :
    ∃ s', Statements.move s i j = .ok s' ∧ Handles (fun l => l = i ∨ l = j) Nothing Nothing s s' := by
  obtain ⟨s', hdestroy, hhandles, hnone⟩ := o.handles_destroy i
  obtain ⟨s₁, hunshare, rfl⟩ := destroy_ok hdestroy
  have hmove : Statements.move s i j = .ok { s₁ with heap := s₁.heap.transfer i j } := by
    rw [Statements.move, hunshare]
    rfl
  by_cases hij : i = j
  · subst hij
    refine ⟨_, hmove, ?_⟩
    rw [RefHeap.transfer, setBuf_self_none]
    exact hhandles.mono fun l => Or.inl
  · have htransfer : s₁.heap.transfer i j = (s₁.heap.setBuf i none).transfer i j := by
      have hbufs : (s₁.heap.setBuf i none).bufs j = s₁.heap.bufs j := Function.update_of_ne (Ne.symm hij) _ _
      rw [RefHeap.transfer, RefHeap.transfer, hbufs]
      simp only [setBuf, Function.update_idem]
    refine ⟨_, hmove, (hhandles.mono fun l => Or.inl).trans ?_⟩
    rw [htransfer]
    exact hhandles.safe.transfer (hhandles.slots ▸ hi) hnone hij

/-! ## Blocks that change -/

theorem Owned.handles_setShared (o : Safe s) {b : Nat} {t t' : Shared} (ht : s.heap.tagOf b = some t)
    (hstmt : t'.stmt = t.stmt) (hfinalize : t'.finalize = t.finalize) {R : Nat → Prop}
    (hR : ¬R b → t'.reentrant = t.reentrant) :
    Handles Nothing Nothing R s (Statements.setShared s b t') :=
  ⟨o.setShared ht hstmt hfinalize, keeps_setShared ht hstmt hR, rfl, retag_slots _ _⟩

theorem Owned.finalize (o : Safe s) (i : Nat) :
    (s.heap.blockOf i = none ∧ Statements.finalize s i = .error .null) ∨
      ∃ s', Statements.finalize s i = .ok s' ∧ Handles Nothing (s.Owns i) Nothing s s' := by
  rcases o.deref (i := i) with ⟨hnone, hderef⟩ | ⟨b, t, hb, ht, hderef⟩
  · refine .inl ⟨hnone, ?_⟩
    rw [Statements.finalize, hderef]
    rfl
  · right
    cases hstmt : t.stmt with
    | none =>
      refine ⟨s, ?_, o, Keeps.refl s, rfl, rfl⟩
      simp only [Statements.finalize, hderef, hstmt, bind, Except.bind]
    | some n =>
      refine ⟨_, ?_, o.finalized ht hstmt, (keeps_finalized ht hstmt).mono (fun _ h => h) ?_ fun _ h => h, rfl,
        retag_slots _ _⟩
      · simp only [Statements.finalize, hderef, hstmt, sqlite3Finalize, if_neg (o.owner ht hstmt).2, bind,
          Except.bind]
      · rintro m rfl
        exact ⟨b, t, hb, ht, hstmt⟩

/-- What a call on a statement does: it fails without a block, or it changes what the block tells. -/
def Tells {α : Type} (s : State) (i : Nat) (r : Except Fault (α × State)) : Prop :=
  (s.heap.blockOf i = none ∧ r = .error .null) ∨
    ∃ a s', r = .ok (a, s') ∧ Handles Nothing Nothing Nothing s s'

theorem Owned.tells {α : Type} (o : Safe s) {f : Nat × Shared → Except Fault (α × State)}
    (h : ∀ b t, s.heap.blockOf i = some b → s.heap.tagOf b = some t →
      ∃ a s', f (b, t) = .ok (a, s') ∧ Handles Nothing Nothing Nothing s s') :
    Tells s i (Statements.deref s i >>= f) := by
  rcases o.deref (i := i) with ⟨hnone, hderef⟩ | ⟨b, t, hb, ht, hderef⟩
  · exact .inl ⟨hnone, by rw [hderef]; rfl⟩
  · obtain ⟨a, s', hf, hhandles⟩ := h b t hb ht
    exact .inr ⟨a, s', by rw [hderef]; exact hf, hhandles⟩

theorem Owned.setErr (o : Safe s) {b : Nat} {t : Shared} (ht : s.heap.tagOf b = some t) (err : Int32) :
    Handles Nothing Nothing Nothing s (Statements.setShared s b { t with err := err }) := by
  apply o.handles_setShared ht
  · rfl
  · rfl
  · exact fun _ => rfl

theorem Owned.resetPrepared (o : Safe s) (i : Nat) : Tells s i (Statements.resetPrepared s i) := by
  apply o.tells
  rintro b ⟨stmt, finalize, reentrant, err⟩ - ht
  dsimp only
  cases stmt with
  | none => exact ⟨_, _, rfl, o.setErr ht SQLITE_INTERNAL⟩
  | some n =>
    refine ⟨0, _, ?_, o.setErr ht 0⟩
    simp only [o.use ht rfl, bind, Except.bind]

theorem Owned.lastError (o : Safe s) (i : Nat) : Tells s i (Statements.lastError s i) := by
  apply o.tells
  intro b t hb _
  dsimp only
  split_ifs with herr
  · exact ⟨0, s, rfl, o, Keeps.refl s, rfl, rfl⟩
  · rcases o.resetPrepared i with ⟨hnone, -⟩ | ⟨_, s', hreset, hhandles⟩
    · rw [hb] at hnone
      contradiction
    · refine ⟨t.err, s', ?_, hhandles⟩
      simp only [hreset, bind, Except.bind]

theorem Owned.stepStatement (o : Safe s) (i : Nat) (code : Int32) :
    Tells s i (Statements.stepStatement s i code) := by
  apply o.tells
  rintro b ⟨stmt, finalize, reentrant, err⟩ - ht
  dsimp only
  cases stmt with
  | none => exact ⟨_, _, rfl, o.setErr ht SQLITE_INTERNAL⟩
  | some n =>
    simp only [o.use ht rfl, bind, Except.bind]
    split_ifs
    · exact ⟨_, _, rfl, o.setErr ht 0⟩
    · exact ⟨_, _, rfl, o.setErr ht 0⟩
    · exact ⟨_, _, rfl, o.setErr ht code⟩

theorem Owned.execPrepared (o : Safe s) (i : Nat) (codes : Nat → Int32) :
    Tells s i (Statements.execPrepared s i codes) := by
  apply o.tells
  rintro b ⟨stmt, finalize, reentrant, err⟩ - ht
  dsimp only
  cases stmt with
  | none => exact ⟨_, _, rfl, o.setErr ht SQLITE_INTERNAL⟩
  | some n =>
    simp only [o.use ht rfl, bind, Except.bind]
    exact ⟨_, _, rfl, o.setErr ht _⟩

/-! ## New blocks -/

/-- A new handle, on a block of its own. -/
structure Comes (s : State) (i : Nat) (s' : State) : Prop where
  slot : i = s.heap.slots
  slots : s'.heap.slots = s.heap.slots + 1
  safe : Safe s'
  keeps : Keeps (· = i) Nothing Nothing s s'
  vars : s'.vars = s.vars
  map : s'.map = s.map
  prepared : s'.prepared = s.prepared
  frames : s'.frames = s.frames

/-- The block of a new handle is new, too. -/
structure ComesAlone (s : State) (i : Nat) (t : Shared) (s' : State) : Prop extends Comes s i s' where
  block : ∃ b, s'.heap.blockOf i = some b ∧ s'.heap.tagOf b = some t ∧ ∀ j, s'.heap.blockOf j = some b → j = i

theorem Owned.push (o : Safe s) : Owned s.heap.push s.stmts s.nextStmt :=
  o.of_tags o.counted.push tagOf_push

theorem Owned.allocate (o : Safe s) : Comes s s.heap.slots { s with heap := s.heap.push } :=
  ⟨rfl, rfl, o.push, Keeps.of_tags (fun _ _ => rfl) tagOf_push, rfl, rfl, rfl, rfl⟩

theorem push_blockOf (o : Safe s) : s.heap.push.blockOf s.heap.slots = none :=
  o.counted.absent (le_refl _)

/-- A new block without a statement, or with one that is new. -/
theorem Owned.attach (o : Safe s) {stmts : Nat → Option Nat} {next : Nat} (t : Shared)
    (hold : ∀ n, s.stmts n ≠ none → stmts n = s.stmts n)
    (hnew : ∀ n, stmts n ≠ none → s.stmts n ≠ none ∨ t.stmt = some n)
    (hstmt : ∀ n, t.stmt = some n → t.finalize = true ∧ stmts n ≠ none ∧ s.stmts n = none)
    (hnext : ∀ n, next ≤ n → stmts n = none) :
    ComesAlone s s.heap.slots t { s with
      heap := s.heap.push.attach s.heap.slots [] t, stmts := stmts, nextStmt := next } := by
  have hpush := o.push
  have hslot : s.heap.push.blockOf s.heap.slots = none := push_blockOf o
  have hlt : s.heap.slots < s.heap.push.slots := Nat.lt_succ_self _
  have hcounted := hpush.counted.attach hlt hslot t
  have htag : ∀ {b u}, (s.heap.push.attach s.heap.slots [] t).tagOf b = some u →
      (b = s.heap.next ∧ u = t) ∨ (b ≠ s.heap.next ∧ s.heap.tagOf b = some u) := by
    intro b u hu
    rw [tagOf_attach] at hu
    split_ifs at hu with hb
    · exact .inl ⟨hb, (Option.some.inj hu).symm⟩
    · exact .inr ⟨hb, hu⟩
  have hblock : ∀ j, (s.heap.push.attach s.heap.slots [] t).blockOf j = some s.heap.next → j = s.heap.slots := by
    intro j hj
    rw [blockOf_attach] at hj
    split_ifs at hj with hjs
    · exact hjs
    · exact absurd (o.counted.lt_next hj) (Nat.lt_irrefl _)
  refine ⟨⟨rfl, rfl, ⟨hcounted, ?_, ?_, ?_, fun h => hnext _ h⟩, ⟨?_, ?_, ?_⟩, rfl, rfl, rfl, rfl⟩,
    s.heap.next, by rw [blockOf_attach, if_pos rfl]; rfl, by rw [tagOf_attach]; exact if_pos rfl, hblock⟩
  · intro b u n hu hn
    rcases htag hu with ⟨-, rfl⟩ | ⟨-, hold'⟩
    · obtain ⟨hfinalize, hlive, -⟩ := hstmt n hn
      exact ⟨hfinalize, hlive⟩
    · obtain ⟨hfinalize, hlive⟩ := o.owner hold' hn
      refine ⟨hfinalize, fun hnone => hlive ?_⟩
      rw [← hold n hlive]
      exact hnone
  · intro b b' u u' n hu hn hu' hn'
    rcases htag hu with ⟨hb, rfl⟩ | ⟨-, hold₁⟩
    · rcases htag hu' with ⟨hb', -⟩ | ⟨-, hold₂⟩
      · rw [hb, hb']
      · exact absurd (hstmt n hn).2.2 (o.owner hold₂ hn').2
    · rcases htag hu' with ⟨-, rfl⟩ | ⟨-, hold₂⟩
      · exact absurd (hstmt n hn').2.2 (o.owner hold₁ hn).2
      · exact o.unique hold₁ hn hold₂ hn'
  · intro n hn
    rcases hnew n hn with hn | hn
    · obtain ⟨b, u, hu, hs⟩ := o.owned hn
      refine ⟨b, u, ?_, hs⟩
      rw [tagOf_attach, if_neg, tagOf_push, hu]
      rintro rfl
      exact absurd (hu.symm.trans (o.counted.fresh (Nat.le_refl s.heap.next))) (by simp)
    · exact ⟨s.heap.next, t, by rw [tagOf_attach]; exact if_pos rfl, hn⟩
  · intro j hj hnone
    change (s.heap.push.attach s.heap.slots [] t).blockOf j = none
    rw [blockOf_attach, if_neg hj, blockOf_push, hnone]
  · intro j b u hj hb hu
    refine ⟨u, ?_, ?_, fun _ => rfl, fun n _ => Iff.rfl⟩
    · change (s.heap.push.attach s.heap.slots [] t).blockOf j = some b
      rw [blockOf_attach, if_neg hj, blockOf_push, hb]
    · change (s.heap.push.attach s.heap.slots [] t).tagOf b = some u
      rw [tagOf_attach, if_neg, tagOf_push, hu]
      exact fun h => Nat.lt_irrefl _ (h ▸ o.counted.lt_next hb)
  · rintro j n hj - ⟨b, u, -, hu, hn⟩
    exact hold n (o.owner hu hn).2

/-- A handle on a block without a statement. -/
theorem Owned.construct (o : Safe s) (junk : Nat → Bool) (finalize : Bool) (err : Int32) :
    ComesAlone s s.heap.slots ⟨none, finalize, junk s.heap.next, err⟩
      (Statements.construct junk s none finalize err).2 :=
  o.attach ⟨none, finalize, junk s.heap.next, err⟩ (fun _ _ => rfl) (fun _ hn => .inl hn)
    (fun _ hn => nomatch hn) fun _ hn => o.fresh hn

/-- What `sqlite3_prepare_v2` does: it compiles a new statement, or changes nothing. -/
theorem prepareV2_cases (s : State) (r : Compiled) :
    (∃ code, code ≠ 0 ∧ prepareV2 s r = (code, none, s)) ∨ prepareV2 s r = (0, none, s) ∨
      ∃ c, s.db = some c ∧ prepareV2 s r = (0, some s.nextStmt,
        { s with stmts := Function.update s.stmts s.nextStmt (some c), nextStmt := s.nextStmt + 1 }) := by
  unfold prepareV2
  split
  · exact .inl ⟨_, by decide, rfl⟩
  · rename_i c hc
    split_ifs with hcode hblank
    · exact .inl ⟨_, hcode, rfl⟩
    · exact .inr (.inl rfl)
    · exact .inr (.inr ⟨c, hc, rfl⟩)

/-- The statement that is compiled goes into a new block. -/
theorem Owned.compiled (o : Safe s) (c : Nat) (reentrant : Bool) :
    ComesAlone s s.heap.slots ⟨some s.nextStmt, true, reentrant, 0⟩ { s with
      heap := s.heap.push.attach s.heap.slots [] ⟨some s.nextStmt, true, reentrant, 0⟩,
      stmts := Function.update s.stmts s.nextStmt (some c), nextStmt := s.nextStmt + 1 } := by
  have hfresh : s.stmts s.nextStmt = none := o.fresh (le_refl _)
  apply o.attach
  · intro n hn
    rw [Function.update_of_ne]
    rintro rfl
    exact hn hfresh
  · intro n hn
    rw [Function.update_apply] at hn
    split_ifs at hn with hnn
    · exact .inr (by rw [hnn])
    · exact .inl hn
  · intro n hn
    obtain rfl := Option.some.inj hn
    exact ⟨rfl, by rw [Function.update_self]; simp, hfresh⟩
  · intro n hn
    rw [Function.update_of_ne (by omega)]
    exact o.fresh (by omega)

end

end Nodeoze.Database.Statements
