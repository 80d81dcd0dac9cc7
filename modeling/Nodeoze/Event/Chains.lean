import Nodeoze.Event.Wiring

/-!
# Chains

`p.then( f1 ).then( f2 ) ... .catcher( h )`: as long as nothing of a chain is written over, each link hands
on what it should, and the error goes down to the catcher (`Follows`).
-/

namespace Nodeoze.Event.Promises

open Promise (Outcome)
open Runs

variable {V Err : Type} {env : Values V Err}

/-! ## A chain that is left alone -/

/-- The functions that make a chain: those with the numbers of its links, and its catcher. -/
def Callback.InChain (numbers : List Nat) (h : Nat) : Callback → Bool
  | .user _ n | .forward n | .pass _ n | .passError _ n => numbers.contains n
  | .catcher n => n == h
  | .reject _ | .final _ | .gather _ _ _ | .gatherError _ _ _ => false

namespace State

variable {s s' t : State V Err} {numbers : List Nat} {h : Nat}

/-- No function of the chain is written over while it waits, each finds the value that it is for, and the
program does not settle what the links have returned. -/
def KeepsChain (env : Values V Err) (numbers : List Nat) (h : Nat) (s : State V Err) (a : Act V Err) : Prop :=
  (∀ e ∈ s.effect env a, s.SparesThose (Callback.InChain numbers h) e) ∧ s.LeavesSettling numbers a

/-- What a promise that `then` returned can have been settled with. -/
def Due (env : Values V Err) (s : State V Err) (n : Nat) (o : Outcome V Err) : Prop :=
  (∃ k o', (k, o') ∈ s.calls ∧ k.Passes n ∧ o = env.norm (s.cells n).isVoid o') ∨
    ∃ kind v, (kind, n, .value v) ∈ s.returned ∧ o = env.norm (s.cells n).isVoid (.resolved v)

/-- The links of a chain are settled with what they are due. -/
def DueLinks (env : Values V Err) (s : State V Err) (numbers : List Nat) : Prop :=
  ∀ x kind n, n ∈ numbers → (x, .user kind n) ∈ s.log → ∀ o, s.fate n = some o → s.Due env n o

theorem returned_step {a : Act V Err} {e : Effect V Err} (hbegan : Began env s s' a e)
    (hperf : Performed env s' e t) {kind : Kind} {n : Nat} {result : Result V}
    (hmem : (kind, n, result) ∈ s.returned) : (kind, n, result) ∈ t.returned := by
  rw [hperf.entered.returned]
  rcases hbegan.returned with heq | ⟨kind', n', result', heq, -⟩
  · exact heq.symm ▸ hmem
  · exact heq.symm ▸ List.mem_append_left _ hmem

theorem Due.step {a : Act V Err} {e : Effect V Err} {n : Nat} {o : Outcome V Err} (hdue : s.Due env n o)
    (hn : n < s.next) (hbegan : Began env s s' a e) (hprep : Prepared env s s' e)
    (hperf : Performed env s' e t) : t.Due env n o := by
  unfold Due
  rw [isVoid_step hprep hperf hn]
  rcases hdue with ⟨k, o', hcall, hk, ho⟩ | ⟨kind, v, hmem, ho⟩
  · refine .inl ⟨k, o', ?_, hk, ho⟩
    rw [hperf.entered.calls, hprep.quiet.calls]
    exact List.mem_append_left _ hcall
  · exact .inr ⟨kind, v, returned_step hbegan hperf hmem, ho⟩

/-- A link is only settled by what belongs to it. -/
theorem DueLinks.step {a : Act V Err} {e : Effect V Err} (hdue : s.DueLinks env numbers) (hw : s.Woven env)
    (hleaves : s.LeavesSettling numbers a) (hbegan : Began env s s' a e) (hprep : Prepared env s s' e)
    (hperf : Performed env s' e t) : t.DueLinks env numbers := by
  intro x kind n hn hmem o ho
  have hnew : n = s.next → s.fate n = none := by
    rintro rfl
    rw [← Option.not_isSome_iff_eq_none]
    exact fun hsome => absurd (hw.sound.fate_lt _ hsome) (Nat.lt_irrefl _)
  cases hfate : s.fate n with
  | some o' =>
    have hlt : n < s.next := hw.sound.fate_lt n (by rw [hfate]; rfl)
    have hold : (x, .user kind n) ∈ s.log := by
      rcases user_of_attached (attached hbegan hprep hperf) hmem with hold | ⟨rfl, -⟩
      · exact hold
      · exact absurd hlt (Nat.lt_irrefl _)
    have heq : o = o' := by
      have hsame : t.fate n = some o' := by
        cases hperf with
        | idle => rw [hprep.quiet.fate, hfate]
        | late => rw [hprep.quiet.fate, hfate]
        | @settles p o'' _ hnone hset =>
          rw [hset.fate hnone, hprep.quiet.fate, hfate]
          rw [hprep.quiet.fate] at hnone
          refine if_neg ?_
          rintro rfl
          rw [hfate] at hnone
          cases hnone
        | attaches hatt => rw [hatt.fate, hprep.quiet.fate, hfate]
        | catches hcatch => rw [hcatch.fate, hprep.quiet.fate, hfate]
      exact Option.some.inj (ho.symm.trans hsame)
    subst heq
    exact (hdue x kind n hn hold o hfate).step hlt hbegan hprep hperf
  | none =>
    rw [← hprep.quiet.fate] at hfate
    have hsame : t.fate n ≠ s'.fate n := by
      rw [hfate, ho]
      exact Option.some_ne_none o
    cases hperf with
    | idle => exact absurd rfl hsame
    | late => exact absurd rfl hsame
    | attaches hatt => exact absurd (hatt.fate n) hsame
    | catches hcatch => exact absurd (hcatch.fate n) hsame
    | @settles p o' _ hnone hset =>
      have hfate' := hset.fate hnone n
      by_cases hp : n = p
      · subst hp
        rw [if_pos rfl, ho] at hfate'
        have hold : (x, .user kind n) ∈ s.log := by
          rw [hset.log, hprep.quiet.log] at hmem
          exact hmem
        have hvoid : (t.cells n).isVoid = (s'.cells n).isVoid := by
          rw [hset.cells, Function.update_self, Cell.finish_isVoid]
        unfold Due
        rw [hvoid, hset.returned, hset.calls, hprep.quiet.calls]
        rcases hbegan.settles with ha | ha | ⟨kind', v, hret, ha⟩ | ⟨k, hcall, hk⟩ | ha
        · rw [ha] at hleaves
          have hsome := hleaves hn
          rw [← hprep.quiet.fate, hnone] at hsome
          cases hsome
        · exact absurd (ha ▸ hw.sound.user_lt hold) (Nat.lt_irrefl _)
        · subst ha
          exact .inr ⟨kind', v, hret, Option.some.inj hfate'⟩
        · exact .inl ⟨k, o', List.mem_append_left _ (hw.handed.pending _ hcall), hk, Option.some.inj hfate'⟩
        · rw [hw.registered.user x kind n hold] at ha
          cases ha
      · rw [if_neg hp] at hfate'
        exact absurd hfate' hsame

/-! ## What comes of a chain -/

/-- What a function has handed on: its value, or what came of the promise that it returned. -/
def handedOn (s : State V Err) (kind : Kind) (n : Nat) : Option (Outcome V Err) :=
  match s.returned.find? fun ret => (ret.1, ret.2.1) == (kind, n) with
  | some (_, _, .value v) => some (.resolved v)
  | some (_, _, .promise q) => s.fate q
  | _ => none

/-- `p.then( f1 ).then( f2 ) ... .catcher( h )` has been attached; only the last function may return
nothing. -/
def Linked (s : State V Err) : Nat → List (Kind × Nat) → Nat → Prop
  | p, [], h => (p, .catcher h) ∈ s.log
  | p, (kind, n) :: links, h =>
    (p, .user kind n) ∈ s.log ∧ (kind = .nothing → links = []) ∧
      s.Linked (if kind = .nothing then p else n) links h

/-- What comes of a chain: an error passes all functions by and goes to the catcher; a value goes to the
first function, and what this hands on to the rest. -/
def Follows (s : State V Err) : Option (Outcome V Err) → List (Kind × Nat) → Nat → Prop
  | some (.rejected e), [], h => s.told (.catcher h) = [.rejected e]
  | none, [], h | some (.resolved _), [], h => s.told (.catcher h) = []
  | some (.resolved v), (kind, n) :: links, h =>
    s.told (.user kind n) = [.resolved v] ∧
      s.Follows (if kind = .nothing then some (.resolved v) else s.handedOn kind n) links h
  | none, (kind, n) :: links, h => s.told (.user kind n) = [] ∧ s.Follows none links h
  | some (.rejected e), (kind, n) :: links, h =>
    s.told (.user kind n) = [] ∧ s.Follows (some (.rejected e)) links h

theorem mem_told {k : Callback} {o : Outcome V Err} : o ∈ s.told k ↔ (k, o) ∈ s.calls := by
  rw [told, List.mem_map]
  constructor
  · rintro ⟨⟨k', o'⟩, hmem, rfl⟩
    obtain ⟨hcall, hk⟩ := List.mem_filter.mp hmem
    obtain rfl : k' = k := beq_iff_eq.mp hk
    exact hcall
  · exact fun hcall => ⟨(k, o), List.mem_filter.mpr ⟨hcall, beq_self_eq_true k⟩, rfl⟩

theorem Served.length_told {p : Nat} {k : Callback} (hserved : s.Served p k) : (s.told k).length ≤ 1 := by
  cases hfate : s.fate p with
  | none => rw [(hserved.pending hfate).2]; exact Nat.zero_le _
  | some o =>
    rw [hserved.settled hfate]
    split
    · exact Nat.le_refl _
    · exact Nat.zero_le _

/-- What settled a link, with the function that was called or has returned. -/
theorem Due.cases {n x : Nat} {kind : Kind} {o : Outcome V Err} (hdue : s.Due env n o) (hw : s.Woven env)
    (hserved : s.ServedThose (Callback.InChain numbers h)) (hn : n ∈ numbers) (hmem : (x, .user kind n) ∈ s.log)
    (hkind : kind ≠ .nothing) :
    (∃ e, s.fate x = some (.rejected e) ∧ o = .rejected e) ∨
      (∃ q, (kind, n, .promise q) ∈ s.returned ∧ s.fate q = some o) ∨
      ∃ v, (kind, n, .value v) ∈ s.returned ∧ o = .resolved v := by
  have hcalled : ∀ kind' result, (kind', n, result) ∈ s.returned → kind' = kind := by
    intro kind' result hret
    obtain ⟨o', ho'⟩ := List.exists_mem_of_length_pos (hw.ran.called hret)
    obtain ⟨x', hx'⟩ := hw.sound.called _ _ (mem_told.mp ho')
    exact hw.wired.kinds x' x kind' kind n hx' hmem
  have hvoid := hw.wired.void x kind n hmem hkind
  rcases hdue with ⟨k, o', hcall, hk, ho⟩ | ⟨kind', v, hret, ho⟩
  · obtain ⟨q, hq⟩ := hw.sound.called k o' hcall
    have hchain : k.InChain numbers h = true := by
      rcases hk with rfl | ⟨m, rfl | rfl⟩ <;> simpa [Callback.InChain] using hn
    have hserve := hserved k hchain q hq
    have htold := mem_told.mpr hcall
    -- what it was called with is what its promise was settled with
    have hfate : s.fate q = some o' ∧ o'.isRejected = k.onReject := by
      cases hf : s.fate q with
      | none =>
        rw [(hserve.pending hf).2] at htold
        cases htold
      | some o'' =>
        rw [hserve.settled hf] at htold
        split at htold
        · rename_i hside
          obtain rfl := List.mem_singleton.mp htold
          exact ⟨rfl, hside⟩
        · cases htold
    rcases hk with rfl | hinner
    · left
      obtain rfl := hw.sound.home q x _ hq (hw.wired.forwards x kind n hmem hkind)
      cases o' with
      | resolved v => cases hfate.2
      | rejected e => exact ⟨e, hfate.1, ho⟩
    · right
      left
      obtain ⟨m, hm⟩ := hinner
      obtain ⟨kind', hret⟩ := hw.wired.back q k m n hq hm
      obtain rfl := hcalled kind' _ hret
      refine ⟨q, hret, ?_⟩
      have hagrees := hw.sound.agrees q
      rw [hfate.1] at hagrees
      rw [hfate.1, ho, hvoid, ← (hw.wired.inner kind' n q hret).2]
      cases o' with
      | resolved v =>
        simp only [Values.norm]
        split
        · rename_i hq
          rw [hagrees.2.2 hq]
        · rfl
      | rejected e => rfl
  · right
    right
    obtain rfl := hcalled kind' _ hret
    refine ⟨v, hret, ?_⟩
    have hfits := hw.fitting kind' n _ hret
    cases kind' with
    | nothing => exact hfits.elim
    | value =>
      rw [ho, hvoid]
      rfl
    | promise isVoid => exact hfits.elim

theorem handedOn_of_mem {kind : Kind} {n : Nat} {result : Result V} (hran : s.Ran)
    (honce : (s.told (.user kind n)).length ≤ 1) (hmem : (kind, n, result) ∈ s.returned) :
    s.returned.find? (fun ret => (ret.1, ret.2.1) == (kind, n)) = some (kind, n, result) := by
  cases hfind : s.returned.find? fun ret => (ret.1, ret.2.1) == (kind, n) with
  | none =>
    have := List.find?_eq_none.mp hfind _ hmem
    simp at this
  | some ret =>
    obtain ⟨kind', n', result'⟩ := ret
    have hkey := List.find?_some hfind
    obtain ⟨rfl, rfl⟩ := Prod.mk.inj (beq_iff_eq.mp hkey)
    rw [hran.unique honce hmem (List.mem_of_find?_eq_some hfind)]

/-- A link has come to what the promise before it came to, or its function has handed on. -/
theorem fate_link {x n : Nat} {kind : Kind} (hw : s.Woven env) (hserved : s.ServedThose (Callback.InChain numbers h))
    (hdue : s.DueLinks env numbers) (hrest : s.pending = []) (hn : n ∈ numbers)
    (hmem : (x, .user kind n) ∈ s.log) (hkind : kind ≠ .nothing) :
    s.fate n = match s.fate x with
      | some (.resolved _) => s.handedOn kind n
      | f => f := by
  have huser : s.Served x (.user kind n) := hserved _ (by simpa [Callback.InChain] using hn) x hmem
  have hforward : s.Served x (.forward n) :=
    hserved _ (by simpa [Callback.InChain] using hn) x (hw.wired.forwards x kind n hmem hkind)
  have hcases : ∀ o, s.fate n = some o → _ := fun o ho =>
    (hdue x kind n hn hmem o ho).cases hw hserved hn hmem hkind
  -- a function that was called to settle it has done so
  have hdone : ∀ k o, (k, o) ∈ s.calls → k.Passes n → ∃ o', s.fate n = some o' := by
    intro k o hcall hk
    rcases hw.handed.passed k o n hcall hk with hsome | hmem
    · exact Option.isSome_iff_exists.mp hsome
    · rw [hrest] at hmem
      cases hmem
  have hreturned : ∀ result, s.told (.user kind n) = [] → (kind, n, result) ∉ s.returned := by
    intro result hnil hret
    have := hw.ran.called hret
    rw [hnil] at this
    exact absurd this (Nat.lt_irrefl _)
  cases hx : s.fate x with
  | none =>
    obtain ⟨-, hnil⟩ := huser.pending hx
    cases hfate : s.fate n with
    | none => rfl
    | some o =>
      rcases hcases o hfate with ⟨e, he, -⟩ | ⟨q, hret, -⟩ | ⟨v, hret, -⟩
      · rw [hx] at he
        cases he
      · exact absurd hret (hreturned _ hnil)
      · exact absurd hret (hreturned _ hnil)
  | some o =>
    cases o with
    | rejected e =>
      have hnil : s.told (.user kind n) = [] := huser.settled hx
      have hcall : s.told (.forward n) = [.rejected e] := hforward.settled hx
      obtain ⟨o, ho⟩ := hdone _ _ (mem_told.mp (hcall ▸ List.mem_singleton_self _)) (.inl rfl)
      rcases hcases o ho with ⟨e', he', rfl⟩ | ⟨q, hret, -⟩ | ⟨v, hret, -⟩
      · rw [ho, ← he', hx]
      · exact absurd hret (hreturned _ hnil)
      · exact absurd hret (hreturned _ hnil)
    | resolved v =>
      have honce := huser.length_told
      have hnot : ∀ e, s.fate x ≠ some (.rejected e) := by
        intro e he
        rw [hx] at he
        cases he
      show s.fate n = s.handedOn kind n
      by_cases hany : ∃ result, (kind, n, result) ∈ s.returned
      · obtain ⟨result, hret⟩ := hany
        have hfits := hw.fitting kind n result hret
        unfold handedOn
        rw [handedOn_of_mem hw.ran honce hret]
        cases result with
        | nothing => cases kind <;> first | exact absurd rfl hkind | exact hfits.elim
        | value w =>
          obtain ⟨o, ho⟩ := Option.isSome_iff_exists.mp (hw.handed.valued kind n w hret)
          rcases hcases o ho with ⟨e, he, -⟩ | ⟨q, hret', -⟩ | ⟨w', hret', rfl⟩
          · exact absurd he (hnot e)
          · cases hw.ran.unique honce hret hret'
          · cases hw.ran.unique honce hret hret'
            exact ho
        | promise q =>
          obtain ⟨⟨m, hpass, herror⟩, -⟩ := hw.wired.inner kind n q hret
          have hq : ∀ o, s.fate n = some o → s.fate q = some o := by
            intro o ho
            rcases hcases o ho with ⟨e, he, -⟩ | ⟨q', hret', hq'⟩ | ⟨w, hret', -⟩
            · exact absurd he (hnot e)
            · cases hw.ran.unique honce hret hret'
              exact hq'
            · cases hw.ran.unique honce hret hret'
          show s.fate n = s.fate q
          cases hfate : s.fate q with
          | none =>
            cases hfn : s.fate n with
            | none => rfl
            | some o => exact absurd (hfate.symm.trans (hq o hfn)) (Option.some_ne_none o).symm
          | some o =>
            have hcall : ∃ k, (k, o) ∈ s.calls ∧ k.Passes n := by
              cases o with
              | resolved w =>
                have htold := (hserved _ (by simpa [Callback.InChain] using hn) q hpass).settled hfate
                exact ⟨_, mem_told.mp (htold ▸ List.mem_singleton_self _), .inr ⟨m, .inl rfl⟩⟩
              | rejected e =>
                have htold := (hserved _ (by simpa [Callback.InChain] using hn) q herror).settled hfate
                exact ⟨_, mem_told.mp (htold ▸ List.mem_singleton_self _), .inr ⟨m, .inr rfl⟩⟩
            obtain ⟨k, hcall, hk⟩ := hcall
            obtain ⟨o', ho'⟩ := hdone k o hcall hk
            rw [ho', ← hq o' ho', hfate]
      · have hfind : s.returned.find? (fun ret => (ret.1, ret.2.1) == (kind, n)) = none := by
          refine List.find?_eq_none.mpr fun ret hret hkey => hany ⟨ret.2.2, ?_⟩
          obtain ⟨rfl, rfl⟩ := Prod.mk.inj (beq_iff_eq.mp hkey)
          exact hret
        unfold handedOn
        rw [hfind]
        cases hfate : s.fate n with
        | none => rfl
        | some o =>
          rcases hcases o hfate with ⟨e, he, -⟩ | ⟨q, hret, -⟩ | ⟨v', hret, -⟩
          · exact absurd he (hnot e)
          · exact absurd ⟨_, hret⟩ hany
          · exact absurd ⟨_, hret⟩ hany

/-- Each link of a chain does what it should. -/
theorem follows_of_served (hw : s.Woven env) (hserved : s.ServedThose (Callback.InChain numbers h))
    (hdue : s.DueLinks env numbers) (hrest : s.pending = []) (links : List (Kind × Nat)) (x : Nat)
    (hnumbers : ∀ link ∈ links, link.2 ∈ numbers) (hlinked : s.Linked x links h) :
    s.Follows (s.fate x) links h := by
  induction links generalizing x with
  | nil =>
    have hcatch : s.Served x (.catcher h) := hserved _ (by simp [Callback.InChain]) x hlinked
    cases hx : s.fate x with
    | none => exact (hcatch.pending hx).2
    | some o =>
      cases o with
      | resolved v => exact hcatch.settled hx
      | rejected e => exact hcatch.settled hx
  | cons link links ih =>
    obtain ⟨kind, n⟩ := link
    obtain ⟨hmem, hlast, hrestLinked⟩ := hlinked
    have hn : n ∈ numbers := hnumbers (kind, n) List.mem_cons_self
    have hfollows := ih _ (fun link hlink => hnumbers link (List.mem_cons_of_mem _ hlink)) hrestLinked
    have huser : s.Served x (.user kind n) := hserved _ (by simpa [Callback.InChain] using hn) x hmem
    by_cases hkind : kind = .nothing
    · rw [if_pos hkind] at hfollows
      cases hx : s.fate x with
      | none =>
        rw [hx] at hfollows
        exact ⟨(huser.pending hx).2, hfollows⟩
      | some o =>
        rw [hx] at hfollows
        cases o with
        | resolved v => exact ⟨huser.settled hx, by rw [if_pos hkind]; exact hfollows⟩
        | rejected e => exact ⟨huser.settled hx, hfollows⟩
    · rw [if_neg hkind, fate_link hw hserved hdue hrest hn hmem hkind] at hfollows
      cases hx : s.fate x with
      | none =>
        rw [hx] at hfollows
        exact ⟨(huser.pending hx).2, hfollows⟩
      | some o =>
        rw [hx] at hfollows
        cases o with
        | resolved v => exact ⟨huser.settled hx, by rw [if_neg hkind]; exact hfollows⟩
        | rejected e => exact ⟨huser.settled hx, hfollows⟩

instance [DecidableEq V] (numbers : List Nat) (h : Nat) (s : State V Err) (a : Act V Err) :
    Decidable (KeepsChain env numbers h s a) :=
  inferInstanceAs (Decidable
    ((∀ e ∈ s.effect env a, s.SparesThose (Callback.InChain numbers h) e) ∧ s.LeavesSettling numbers a))

/-- Three functions that return a value, a promise and nothing, with a catcher. -/
def threeLinks : List (Act Nat Nat) :=
  [.create false, .then_ 0 .value false 0, .then_ 1 (.promise false) false 0, .then_ 2 .nothing false 0,
    .catcher 2]

/-- The promise that the second function returns is rejected later. -/
def innerRejected : List (Act Nat Nat) :=
  [.create false, .settle 0 (.resolved 7), .go 0, .ret (.value 8) 0, .go 0, .ret (.promise 5) 0, .go 0,
    .go 0, .settle 5 (.rejected 9), .go 0, .go 0, .ret .nothing 0, .go 0, .go 0]

/-- Two chains on one promise, which is rejected. -/
def twoChains : List (Act Nat Nat) :=
  [.create false, .then_ 0 .value false 0, .catcher 1, .then_ 0 .value false 0, .catcher 3,
    .settle 0 (.rejected 9), .go 0, .go 0, .ret .nothing 0, .go 0, .go 0]

/-- A chain behind a continuation that has taken the value. -/
def secondChain : List (Act Nat Nat) :=
  [.create false, .settle 0 (.resolved 7), .then_ 0 .nothing false 0, .go 0, .ret .nothing 0, .go 0,
    .then_ 0 .nothing false 0, .go 0, .ret .nothing 0, .go 0, .catcher 0]

end State

end Nodeoze.Event.Promises
