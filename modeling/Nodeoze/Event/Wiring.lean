import Nodeoze.Event.Callstack

/-!
# What belongs to what `then` returned

The promise that `then` returned is settled by the function that was attached with it, by the promise that
this function has returned, or by the error that came to it, and the results of `all`, `any` and `race` are
promises of another kind (`Woven`).  This holds in every run.
-/

namespace Nodeoze.Event.Promises

open Promise (Outcome)

variable {V Err : Type} {env : Values V Err}

/-- The functions of the library that settle what `then` returned. -/
def Callback.Passes (n : Nat) (k : Callback) : Prop :=
  k = .forward n ∨ ∃ m, k = .pass m n ∨ k = .passError m n

theorem Callback.Passes.inj {k : Callback} {n n' : Nat} (h : k.Passes n) (h' : k.Passes n') : n = n' := by
  rcases h with rfl | ⟨m, rfl | rfl⟩ <;> rcases h' with h' | ⟨m', h' | h'⟩ <;> cases h' <;> rfl

theorem Callback.Passes.target {k : Callback} {n : Nat} (h : k.Passes n) : k.target = some n := by
  rcases h with rfl | ⟨m, rfl | rfl⟩ <;> rfl

namespace State

variable {s s' t : State V Err}

/-! ## What a step attaches -/

theorem Performed.next {e : Effect V Err} (h : Performed env s e t) : t.next = s.next := by
  cases h with
  | idle => rfl
  | late => rfl
  | settles hnone hset => exact hset.next
  | attaches hatt => exact hatt.next
  | catches hcatch => exact hcatch.next

theorem Performed.isVoid {e : Effect V Err} (h : Performed env s e t) (p : Nat) :
    (t.cells p).isVoid = (s.cells p).isVoid := by
  cases h with
  | idle => rfl
  | late => rfl
  | @settles q o _ hnone hset =>
    rw [hset.cells]
    by_cases hp : p = q
    · subst hp
      rw [Function.update_self, Cell.finish_isVoid]
    · rw [Function.update_of_ne hp]
  | @attaches q a b leaves _ hatt =>
    obtain ⟨v, hcells, -⟩ := hatt.cells
    rw [hcells]
    by_cases hp : p = q
    · subst hp
      rw [Function.update_self]
    · rw [Function.update_of_ne hp]
  | @catches q k _ hcatch =>
    rcases hcatch.cell p with heq | ⟨rfl, -, heq⟩
    · rw [heq]
    · rw [heq]

/-- The functions that a step attaches to a promise. -/
inductive Attached (s t : State V Err) : Prop
  | none (hlog : t.log = s.log)
      (hreturned : ∀ kind n q, (kind, n, .promise q) ∈ t.returned ↔ (kind, n, .promise q) ∈ s.returned)
  | then_ (p : Nat) (kind : Kind) (hasReject : Bool)
      (hlog : ∀ q k, (q, k) ∈ t.log ↔
        (q, k) ∈ s.log ∨ q = p ∧ (k = .user kind s.next ∨ k ∈ kind.rejectSlot s.next hasReject))
      (hvoid : kind ≠ .nothing → (t.cells s.next).isVoid = kind.isVoid) (hreturned : t.returned = s.returned)
      (hgathers : t.gathers = s.gathers)
  | catcher (p : Nat) (hlog : ∀ q k, (q, k) ∈ t.log ↔ (q, k) ∈ s.log ∨ q = p ∧ k = .catcher s.next)
      (hreturned : t.returned = s.returned)
  | inner (isVoid : Bool) (n p : Nat)
      (hlog : ∀ q k, (q, k) ∈ t.log ↔
        (q, k) ∈ s.log ∨ q = p ∧ (k = .pass s.next n ∨ k = .passError s.next n))
      (hreturned : t.returned = s.returned ++ [(.promise isVoid, n, .promise p)])
      (hp : p ∈ s.promises) (hvoid : (s.cells p).isVoid = isVoid)
  | register (c index p : Nat) (todo : List Nat)
      (hregister : (c, index, p :: todo) ∈ s.registers)
      (hlog : ∀ q k, (q, k) ∈ t.log ↔
        (q, k) ∈ s.log ∨ q = p ∧ (k = .gather s.next c index ∨ k = .gatherError s.next c index))
      (hreturned : t.returned = s.returned)

theorem attached {a : Act V Err} {e : Effect V Err} (hbegan : Began env s s' a e)
    (hprep : Prepared env s s' e) (hperf : Performed env s' e t) : Attached s t := by
  have hlog := hprep.quiet.log
  have hent := hperf.entered
  have hsettle : ∀ p o, e = .settle p o →
      (∀ kind n q, (kind, n, .promise q) ∈ s'.returned ↔ (kind, n, .promise q) ∈ s.returned) →
      Attached s t := by
    rintro p o rfl hreturned
    refine .none ?_ fun kind n q => hent.returned ▸ hreturned kind n q
    cases hperf with
    | late => exact hlog
    | settles hnone hset => exact hset.log.trans hlog
  have hidle : e = .idle →
      (∀ kind n q, (kind, n, .promise q) ∈ s'.returned ↔ (kind, n, .promise q) ∈ s.returned) →
      Attached s t := by
    rintro rfl hreturned
    cases hperf
    exact .none hlog hreturned
  have hsame : s'.returned = s.returned →
      ∀ kind n q, (kind, n, .promise q) ∈ s'.returned ↔ (kind, n, .promise q) ∈ s.returned := by
    intro heq kind n q
    rw [heq]
  have hattach : ∀ p a b leaves, e = .attach p a (some b) leaves →
      ∀ q k, (q, k) ∈ t.log ↔ (q, k) ∈ s.log ∨ q = p ∧ (k = a ∨ k = b) := by
    rintro p a b leaves rfl q k
    cases hperf with
    | attaches hatt =>
      rw [hatt.mem_log, hlog, Option.mem_some]
      constructor
      · rintro (hmem | ⟨hq, rfl | rfl⟩)
        · exact .inl hmem
        · exact .inr ⟨hq, .inl rfl⟩
        · exact .inr ⟨hq, .inr rfl⟩
      · rintro (hmem | ⟨hq, rfl | rfl⟩)
        · exact .inl hmem
        · exact .inr ⟨hq, .inl rfl⟩
        · exact .inr ⟨hq, .inr rfl⟩
  cases hbegan with
  | idle a hkept => exact hidle rfl (hsame hkept.returned)
  | then_ p kind hasReject leaves hkept hvoid =>
    refine .then_ p kind hasReject (fun q k => ?_) (fun hkind => ?_) (hent.returned.trans hkept.returned)
      (hent.gathers.trans hkept.gathers)
    · cases hperf with
      | attaches hatt => rw [hatt.mem_log, hlog]
    · rw [hperf.isVoid]
      exact hvoid hkind
  | catcher p hkept =>
    refine .catcher p (fun q k => ?_) (hent.returned.trans hkept.returned)
    cases hperf with
    | catches hcatch => rw [hcatch.mem_log, hlog]
  | settle p o hkept => exact hsettle p o rfl (hsame hkept.returned)
  | gatherNone mode isVoid _ _ _ _ hreturned => exact hsettle _ _ rfl (hsame hreturned)
  | gather mode isVoid inputs _ _ _ _ _ _ hreturned => exact hidle rfl (hsame hreturned)
  | ret kind n result leaves e _ _ hreturned _ _ _ he =>
    have happend : (∀ q, result ≠ .promise q) →
        ∀ kind n q, (kind, n, .promise q) ∈ s'.returned ↔ (kind, n, .promise q) ∈ s.returned := by
      intro hne kind' n' q
      rw [hreturned, List.mem_append, List.mem_singleton]
      constructor
      · rintro (hmem | heq)
        · exact hmem
        · cases heq
          exact absurd rfl (hne q)
      · exact .inl
    cases kind with
    | nothing =>
      cases result with
      | nothing => exact hidle he (happend fun q h => by cases h)
      | value v => exact he.elim
      | promise q => exact he.elim
    | value =>
      cases result with
      | nothing => exact he.elim
      | value v => exact hsettle _ _ he (happend fun q h => by cases h)
      | promise q => exact he.elim
    | promise isVoid =>
      cases result with
      | nothing => exact he.elim
      | value v => exact he.elim
      | promise q =>
        obtain ⟨hq, hvoid, he⟩ := he
        exact .inner isVoid n q (hattach _ _ _ _ he) (hent.returned.trans hreturned) hq hvoid
  | user kind n o leaves htaken => exact hidle rfl (hsame htaken.returned)
  | other k o leaves htaken => exact hidle rfl (hsame htaken.returned)
  | pass k n o leaves htaken => exact hsettle _ _ rfl (hsame htaken.returned)
  | gathered k m c index o leaves htaken _ _ e he =>
    cases hg : s.gathers c with
    | none =>
      rw [hg] at he
      exact hidle he.2 (hsame htaken.returned)
    | some g =>
      rw [hg] at he
      cases hr : (g.hear env (s.cells c).isFinished index o).2 with
      | none => exact hidle (he.2.trans (by rw [hr]; rfl)) (hsame htaken.returned)
      | some o' => exact hsettle c o' (he.2.trans (by rw [hr]; rfl)) (hsame htaken.returned)
  | through c index leaves _ _ hreturned => exact hidle rfl (hsame hreturned)
  | next c index p todo leaves rest hregisters _ _ hreturned =>
    refine .register c index p todo ?_ (hattach _ _ _ _ rfl) (hent.returned.trans hreturned)
    rw [hregisters]
    exact List.mem_cons_self

theorem isVoid_step {e : Effect V Err} (hprep : Prepared env s s' e) (hperf : Performed env s' e t) {p : Nat}
    (hp : p < s.next) : (t.cells p).isVoid = (s.cells p).isVoid :=
  (hperf.isVoid p).trans (hprep.quiet.like hp).isVoid

theorem Sound.user_lt (h : s.Sound env) {x n : Nat} {kind : Kind} (hmem : (x, .user kind n) ∈ s.log) :
    n < s.next :=
  (h.log_lt x _ hmem).2.1

/-- What belongs together is attached together. -/
structure Wired (s : State V Err) : Prop where
  forwards : ∀ x kind n, (x, .user kind n) ∈ s.log → kind ≠ .nothing → (x, .forward n) ∈ s.log
  users : ∀ x n, (x, .forward n) ∈ s.log → ∃ kind, (x, .user kind n) ∈ s.log
  kinds : ∀ x x' kind kind' n, (x, .user kind n) ∈ s.log → (x', .user kind' n) ∈ s.log → kind = kind'
  void : ∀ x kind n, (x, .user kind n) ∈ s.log → kind ≠ .nothing → (s.cells n).isVoid = kind.isVoid
  inner : ∀ kind n q, (kind, n, .promise q) ∈ s.returned →
    (∃ m, (q, .pass m n) ∈ s.log ∧ (q, .passError m n) ∈ s.log) ∧ (s.cells q).isVoid = kind.isVoid
  back : ∀ q k m n, (q, k) ∈ s.log → (k = .pass m n ∨ k = .passError m n) →
    ∃ kind, (kind, n, .promise q) ∈ s.returned

theorem wired_init : (init env : State V Err).Wired where
  forwards _ _ _ hmem := absurd hmem List.not_mem_nil
  users _ _ hmem := absurd hmem List.not_mem_nil
  kinds _ _ _ _ _ hmem := absurd hmem List.not_mem_nil
  void _ _ _ hmem := absurd hmem List.not_mem_nil
  inner _ _ _ hmem := absurd hmem List.not_mem_nil
  back _ _ _ _ hmem := absurd hmem List.not_mem_nil

/-- The functions that a step does not attach are those that were attached before. -/
theorem Wired.keep {e : Effect V Err} (h : s.Wired) (hs : s.Sound env) (hprep : Prepared env s s' e)
    (hperf : Performed env s' e t)
    (huser : ∀ x kind n, (x, .user kind n) ∈ t.log → (x, .user kind n) ∈ s.log)
    (hforward : ∀ x n, (x, .forward n) ∈ t.log → (x, .forward n) ∈ s.log)
    (hinner : ∀ q k m n, (q, k) ∈ t.log → (k = .pass m n ∨ k = .passError m n) → (q, k) ∈ s.log)
    (hlog : ∀ q k, (q, k) ∈ s.log → (q, k) ∈ t.log)
    (hreturned : ∀ kind n q, (kind, n, .promise q) ∈ t.returned ↔ (kind, n, .promise q) ∈ s.returned) :
    t.Wired where
  forwards x kind n hmem hkind := hlog x _ (h.forwards x kind n (huser x kind n hmem) hkind)
  users x n hmem := by
    obtain ⟨kind, huser⟩ := h.users x n (hforward x n hmem)
    exact ⟨kind, hlog x _ huser⟩
  kinds x x' kind kind' n hmem hmem' := h.kinds x x' kind kind' n (huser _ _ _ hmem) (huser _ _ _ hmem')
  void x kind n hmem hkind := by
    have hold := huser x kind n hmem
    rw [isVoid_step hprep hperf (hs.user_lt hold)]
    exact h.void x kind n hold hkind
  inner kind n q hmem := by
    obtain ⟨⟨m, hpass, herror⟩, hvoid⟩ := h.inner kind n q ((hreturned kind n q).mp hmem)
    refine ⟨⟨m, hlog q _ hpass, hlog q _ herror⟩, ?_⟩
    rw [isVoid_step hprep hperf (hs.log_lt q _ hpass).1]
    exact hvoid
  back q k m n hmem hk := by
    obtain ⟨kind, hret⟩ := h.back q k m n (hinner q k m n hmem hk) hk
    exact ⟨kind, (hreturned kind n q).mpr hret⟩

theorem Wired.step {a : Act V Err} {e : Effect V Err} (h : s.Wired) (hs : s.Sound env)
    (hbegan : Began env s s' a e) (hprep : Prepared env s s' e) (hperf : Performed env s' e t) :
    t.Wired := by
  cases attached hbegan hprep hperf with
  | none hlog hreturned =>
    refine h.keep hs hprep hperf ?_ ?_ ?_ ?_ hreturned
    · exact fun x kind n hmem => hlog ▸ hmem
    · exact fun x n hmem => hlog ▸ hmem
    · exact fun q k m n hmem _ => hlog ▸ hmem
    · exact fun q k hmem => hlog ▸ hmem
  | catcher p hlog hreturned =>
    refine h.keep hs hprep hperf ?_ ?_ ?_ (fun q k hmem => (hlog q k).mpr (.inl hmem))
      fun kind n q => by rw [hreturned]
    · intro x kind n hmem
      rcases (hlog _ _).mp hmem with hmem | ⟨-, hk⟩
      · exact hmem
      · cases hk
    · intro x n hmem
      rcases (hlog _ _).mp hmem with hmem | ⟨-, hk⟩
      · exact hmem
      · cases hk
    · rintro q k m n hmem (rfl | rfl)
      · rcases (hlog _ _).mp hmem with hmem | ⟨-, hk⟩
        · exact hmem
        · cases hk
      · rcases (hlog _ _).mp hmem with hmem | ⟨-, hk⟩
        · exact hmem
        · cases hk
  | register c index p todo hregister hlog hreturned =>
    refine h.keep hs hprep hperf ?_ ?_ ?_ (fun q k hmem => (hlog q k).mpr (.inl hmem))
      fun kind n q => by rw [hreturned]
    · intro x kind n hmem
      rcases (hlog _ _).mp hmem with hmem | ⟨-, hk | hk⟩
      · exact hmem
      · cases hk
      · cases hk
    · intro x n hmem
      rcases (hlog _ _).mp hmem with hmem | ⟨-, hk | hk⟩
      · exact hmem
      · cases hk
      · cases hk
    · rintro q k m n hmem (rfl | rfl)
      · rcases (hlog _ _).mp hmem with hmem | ⟨-, hk | hk⟩
        · exact hmem
        · cases hk
        · cases hk
      · rcases (hlog _ _).mp hmem with hmem | ⟨-, hk | hk⟩
        · exact hmem
        · cases hk
        · cases hk
  | then_ p kind₀ hasReject hlog hvoid hreturned hgathers =>
    have huser : ∀ x kind n, (x, .user kind n) ∈ t.log →
        (x, .user kind n) ∈ s.log ∨ (x = p ∧ kind = kind₀ ∧ n = s.next) := by
      intro x kind n hmem
      rcases (hlog _ _).mp hmem with hmem | ⟨hx, hk | hk⟩
      · exact .inl hmem
      · cases hk
        exact .inr ⟨hx, rfl, rfl⟩
      · cases kind₀ with
        | nothing => cases hasReject <;> cases hk
        | value => cases hk
        | promise isVoid => cases hk
    refine ⟨fun x kind n hmem hkind => ?_, fun x n hmem => ?_, fun x x' kind kind' n hmem hmem' => ?_,
      fun x kind n hmem hkind => ?_, fun kind n q hmem => ?_, fun q k m n hmem hk => ?_⟩
    · rcases huser x kind n hmem with hold | ⟨rfl, rfl, rfl⟩
      · exact (hlog x _).mpr (.inl (h.forwards x kind n hold hkind))
      · refine (hlog x _).mpr (.inr ⟨rfl, .inr ?_⟩)
        cases kind with
        | nothing => exact absurd rfl hkind
        | value => rfl
        | promise isVoid => rfl
    · rcases (hlog _ _).mp hmem with hold | ⟨rfl, hk | hk⟩
      · obtain ⟨kind, hkind⟩ := h.users x n hold
        exact ⟨kind, (hlog x _).mpr (.inl hkind)⟩
      · cases hk
      · refine ⟨kind₀, (hlog x _).mpr (.inr ⟨rfl, .inl ?_⟩)⟩
        cases kind₀ with
        | nothing => cases hasReject <;> cases hk
        | value =>
          cases hk
          rfl
        | promise isVoid =>
          cases hk
          rfl
    · rcases huser x kind n hmem with hold | ⟨rfl, rfl, rfl⟩
      · rcases huser x' kind' n hmem' with hold' | ⟨rfl, rfl, rfl⟩
        · exact h.kinds x x' kind kind' n hold hold'
        · exact absurd (hs.user_lt hold) (Nat.lt_irrefl _)
      · rcases huser x' kind' s.next hmem' with hold' | ⟨-, rfl, -⟩
        · exact absurd (hs.user_lt hold') (Nat.lt_irrefl _)
        · rfl
    · rcases huser x kind n hmem with hold | ⟨rfl, rfl, rfl⟩
      · rw [isVoid_step hprep hperf (hs.user_lt hold)]
        exact h.void x kind n hold hkind
      · exact hvoid hkind
    · obtain ⟨⟨m, hpass, herror⟩, hq⟩ := h.inner kind n q (hreturned ▸ hmem)
      refine ⟨⟨m, (hlog q _).mpr (.inl hpass), (hlog q _).mpr (.inl herror)⟩, ?_⟩
      rw [isVoid_step hprep hperf (hs.log_lt q _ hpass).1]
      exact hq
    · rw [hreturned]
      rcases (hlog _ _).mp hmem with hold | ⟨-, hk' | hk'⟩
      · exact h.back q k m n hold hk
      · subst hk'
        rcases hk with hk | hk <;> cases hk
      · cases kind₀ with
        | nothing =>
          cases hasReject with
          | false => cases hk'
          | true =>
            obtain rfl := Option.some.inj hk'
            rcases hk with hk | hk <;> cases hk
        | value =>
          obtain rfl := Option.some.inj hk'
          rcases hk with hk | hk <;> cases hk
        | promise isVoid =>
          obtain rfl := Option.some.inj hk'
          rcases hk with hk | hk <;> cases hk
  | inner isVoid n₀ p hlog hreturned hp hvoid =>
    have huser : ∀ x kind n, (x, .user kind n) ∈ t.log → (x, .user kind n) ∈ s.log := by
      intro x kind n hmem
      rcases (hlog _ _).mp hmem with hmem | ⟨-, hk | hk⟩
      · exact hmem
      · cases hk
      · cases hk
    refine ⟨fun x kind n hmem hkind => ?_, fun x n hmem => ?_, fun x x' kind kind' n hmem hmem' => ?_,
      fun x kind n hmem hkind => ?_, fun kind n q hmem => ?_, fun q k m n hmem hk => ?_⟩
    · exact (hlog x _).mpr (.inl (h.forwards x kind n (huser x kind n hmem) hkind))
    · rcases (hlog _ _).mp hmem with hold | ⟨-, hk | hk⟩
      · obtain ⟨kind, hkind⟩ := h.users x n hold
        exact ⟨kind, (hlog x _).mpr (.inl hkind)⟩
      · cases hk
      · cases hk
    · exact h.kinds x x' kind kind' n (huser _ _ _ hmem) (huser _ _ _ hmem')
    · have hold := huser x kind n hmem
      rw [isVoid_step hprep hperf (hs.user_lt hold)]
      exact h.void x kind n hold hkind
    · rw [hreturned, List.mem_append, List.mem_singleton] at hmem
      rcases hmem with hmem | hmem
      · obtain ⟨⟨m, hpass, herror⟩, hq⟩ := h.inner kind n q hmem
        refine ⟨⟨m, (hlog q _).mpr (.inl hpass), (hlog q _).mpr (.inl herror)⟩, ?_⟩
        rw [isVoid_step hprep hperf (hs.log_lt q _ hpass).1]
        exact hq
      · cases hmem
        refine ⟨⟨s.next, (hlog p _).mpr (.inr ⟨rfl, .inl rfl⟩), (hlog p _).mpr (.inr ⟨rfl, .inr rfl⟩)⟩, ?_⟩
        rw [isVoid_step hprep hperf (hs.framed.promises p hp)]
        exact hvoid
    · rw [hreturned]
      rcases (hlog _ _).mp hmem with hold | ⟨rfl, hk'⟩
      · obtain ⟨kind, hret⟩ := h.back q k m n hold hk
        exact ⟨kind, List.mem_append_left _ hret⟩
      · refine ⟨.promise isVoid, List.mem_append_right _ (List.mem_singleton.mpr ?_)⟩
        rcases hk with rfl | rfl
        · rcases hk' with hk' | hk' <;> cases hk'
          rfl
        · rcases hk' with hk' | hk' <;> cases hk'
          rfl

/-! ## What has run -/

/-- A function that was called is about to begin, runs, or has returned. -/
def Ran (s : State V Err) : Prop :=
  ∀ kind n, s.calls.countP (fun call => call.1 == .user kind n)
    = s.pending.countP (fun call => call.1 == .user kind n) + s.jobs.count (kind, n)
      + s.returned.countP fun ret => (ret.1, ret.2.1) == (kind, n)

theorem user_beq (kind kind' : Kind) (n n' : Nat) :
    (Callback.user kind n == Callback.user kind' n') = ((kind, n) == (kind', n')) := by
  rw [Bool.eq_iff_iff, beq_iff_eq, beq_iff_eq, Callback.user.injEq, Prod.mk.injEq]

theorem Ran.began {a : Act V Err} {e : Effect V Err} (h : s.Ran) (hcalls : s'.calls = s.calls)
    (hbegan : Began env s s' a e) : s'.Ran := by
  intro kind n
  have hran := h kind n
  rw [hcalls, hran]
  have hsame : s'.pending = s.pending → s'.jobs = s.jobs → s'.returned = s.returned →
      s.pending.countP (fun call => call.1 == .user kind n) + s.jobs.count (kind, n)
          + s.returned.countP (fun ret => (ret.1, ret.2.1) == (kind, n))
        = s'.pending.countP (fun call => call.1 == .user kind n) + s'.jobs.count (kind, n)
          + s'.returned.countP (fun ret => (ret.1, ret.2.1) == (kind, n)) := by
    intro hpending hjobs hreturned
    rw [hpending, hjobs, hreturned]
  have htake : ∀ k o, k ≠ .user kind n → Taken s k o s' → s'.jobs = s.jobs →
      s.pending.countP (fun call => call.1 == .user kind n) + s.jobs.count (kind, n)
          + s.returned.countP (fun ret => (ret.1, ret.2.1) == (kind, n))
        = s'.pending.countP (fun call => call.1 == .user kind n) + s'.jobs.count (kind, n)
          + s'.returned.countP (fun ret => (ret.1, ret.2.1) == (kind, n)) := by
    intro k o hne htaken hjobs
    rw [htaken.pending, List.countP_cons_of_neg (by simpa using hne), hjobs, htaken.returned]
  cases hbegan with
  | idle a hkept => exact hsame hkept.pending hkept.jobs hkept.returned
  | then_ p kind hasReject leaves hkept => exact hsame hkept.pending hkept.jobs hkept.returned
  | catcher p hkept => exact hsame hkept.pending hkept.jobs hkept.returned
  | settle p o hkept => exact hsame hkept.pending hkept.jobs hkept.returned
  | gatherNone mode isVoid _ _ hjobs _ hreturned hpending => exact hsame hpending hjobs hreturned
  | gather mode isVoid inputs _ _ _ _ _ hjobs hreturned hpending => exact hsame hpending hjobs hreturned
  | ret kind' n' result leaves e _ hjobs hreturned _ hpending _ _ =>
    rw [hjobs, hreturned, hpending, List.count_cons, List.countP_append, List.countP_singleton]
    dsimp only
    omega
  | user kind' n' o leaves htaken _ hjobs =>
    rw [htaken.pending, hjobs, htaken.returned, List.countP_cons, List.count_cons, user_beq]
    omega
  | other k o leaves htaken hk _ hjobs =>
    refine htake k o ?_ htaken hjobs
    rintro rfl
    cases hk
  | pass k n' o leaves htaken hk _ hjobs =>
    refine htake k o ?_ htaken hjobs
    rintro rfl
    rcases hk with hk | ⟨m, hk | hk⟩ <;> cases hk
  | gathered k m c index o leaves htaken hk hjobs =>
    refine htake k o ?_ htaken hjobs
    rintro rfl
    rcases hk with hk | hk <;> cases hk
  | through c index leaves _ _ hreturned hjobs hpending => exact hsame hpending hjobs hreturned
  | next c index p todo leaves rest _ _ _ hreturned hjobs hpending => exact hsame hpending hjobs hreturned

theorem Ran.entered {new : List (Callback × Outcome V Err)} (h : s.Ran) (hent : Entered s t new) :
    t.Ran := by
  intro kind n
  rw [hent.calls, hent.pending, hent.jobs, hent.returned, List.countP_append, List.countP_append, h kind n]
  omega

theorem length_told (s : State V Err) (k : Callback) :
    (s.told k).length = s.calls.countP fun call => call.1 == k := by
  rw [told, List.length_map, List.countP_eq_length_filter]

/-- What has returned was called. -/
theorem Ran.called {kind : Kind} {n : Nat} {result : Result V} (h : s.Ran)
    (hmem : (kind, n, result) ∈ s.returned) : 0 < (s.told (.user kind n)).length := by
  have hpos : 0 < s.returned.countP fun ret => (ret.1, ret.2.1) == (kind, n) :=
    List.countP_pos_iff.mpr ⟨_, hmem, beq_self_eq_true _⟩
  rw [length_told, h kind n]
  omega

/-- A function that was called once returns once. -/
theorem Ran.unique {kind : Kind} {n : Nat} {result result' : Result V} (h : s.Ran)
    (honce : (s.told (.user kind n)).length ≤ 1) (hmem : (kind, n, result) ∈ s.returned)
    (hmem' : (kind, n, result') ∈ s.returned) : result = result' := by
  have hle : (s.returned.filter fun ret => (ret.1, ret.2.1) == (kind, n)).length ≤ 1 := by
    rw [← List.countP_eq_length_filter]
    rw [length_told, h kind n] at honce
    omega
  have hfilter : ∀ r, (kind, n, r) ∈ s.returned →
      (kind, n, r) ∈ s.returned.filter fun ret => (ret.1, ret.2.1) == (kind, n) :=
    fun r hr => List.mem_filter.mpr ⟨hr, beq_self_eq_true (kind, n)⟩
  have hin := hfilter result hmem
  have hin' := hfilter result' hmem'
  generalize s.returned.filter (fun ret => (ret.1, ret.2.1) == (kind, n)) = l at hle hin hin'
  rcases l with _ | ⟨ret, _ | ⟨ret', l⟩⟩
  · cases hin
  · have heq := (List.mem_singleton.mp hin).trans (List.mem_singleton.mp hin').symm
    cases heq
    rfl
  · simp at hle

/-! ## What settles a promise -/

theorem Performed.later {e : Effect V Err} (h : Performed env s e t) : Later s t := by
  cases h with
  | idle => exact ⟨Nat.le_refl _, fun _ hp => hp⟩
  | late => exact ⟨Nat.le_refl _, fun _ hp => hp⟩
  | settles hnone hset => exact hset.later hnone
  | attaches hatt => exact ⟨Nat.le_of_eq hatt.next.symm, fun q hq => (hatt.fate q).symm ▸ hq⟩
  | catches hcatch => exact ⟨Nat.le_of_eq hcatch.next.symm, fun q hq => (hcatch.fate q).symm ▸ hq⟩

theorem later_step {e : Effect V Err} (hprep : Prepared env s s' e) (hperf : Performed env s' e t) :
    Later s t :=
  ⟨Nat.le_trans hprep.quiet.next hperf.later.next,
    fun p hp => hperf.later.fate p (hprep.quiet.later.fate p hp)⟩

theorem Performed.settled {p : Nat} {o : Outcome V Err} (h : Performed env s (.settle p o) t) :
    (t.fate p).isSome = true := by
  cases h with
  | late _ _ hsome => exact hsome
  | settles hnone hset =>
    rw [hset.fate hnone, if_pos rfl]
    rfl

/-- What was called to settle a promise has settled it, or is about to. -/
structure Handed (s : State V Err) : Prop where
  pending : ∀ call ∈ s.pending, call ∈ s.calls
  passed : ∀ k o n, (k, o) ∈ s.calls → k.Passes n → (s.fate n).isSome = true ∨ (k, o) ∈ s.pending
  valued : ∀ kind n v, (kind, n, .value v) ∈ s.returned → (s.fate n).isSome = true

theorem Handed.step {a : Act V Err} {e : Effect V Err} (h : s.Handed) (hordered : s.Ordered)
    (hbegan : Began env s s' a e) (hprep : Prepared env s s' e) (hperf : Performed env s' e t) :
    t.Handed := by
  have hent := hperf.entered
  have hlater := later_step hprep hperf
  have hpending := hbegan.pending
  refine ⟨fun call hcall => ?_, fun k o n hcall hk => ?_, fun kind n v hmem => ?_⟩
  · rw [hent.pending, List.mem_append] at hcall
    rw [hent.calls, List.mem_append, hprep.quiet.calls]
    rcases hcall with hcall | hcall
    · exact .inr hcall
    · left
      refine h.pending call ?_
      rw [hpending]
      exact List.mem_append_right _ hcall
  · rw [hent.calls, List.mem_append, hprep.quiet.calls] at hcall
    rw [hent.pending, List.mem_append]
    rcases hcall with hcall | hcall
    · rcases h.passed k o n hcall hk with hsome | hmem
      · exact .inl (hlater.fate n hsome)
      · left
        -- the call is on top, and what it does is to settle the promise
        rw [hordered] at hmem
        have hnil : s.top = [] → (t.fate n).isSome = true := by
          intro htop
          rw [htop] at hmem
          cases hmem
        have heq : ∀ k' o', s.top = [(k', o')] → k = k' ∧ o = o' := by
          intro k' o' htop
          rw [htop] at hmem
          cases List.mem_singleton.mp hmem
          exact ⟨rfl, rfl⟩
        cases hbegan with
        | idle a hkept => exact hnil hkept.top
        | then_ p kind hasReject leaves hkept => exact hnil hkept.top
        | catcher p hkept => exact hnil hkept.top
        | settle p o hkept => exact hnil hkept.top
        | gatherNone mode isVoid _ _ _ _ _ _ htop => exact hnil htop
        | gather mode isVoid inputs _ _ _ _ _ _ _ _ htop => exact hnil htop
        | ret kind n result leaves e _ _ _ _ _ htop => exact hnil htop
        | user kind n' o' leaves htaken =>
          obtain ⟨rfl, rfl⟩ := heq _ _ htaken.top
          rcases hk with hk | ⟨m, hk | hk⟩ <;> cases hk
        | other k' o' leaves htaken hk' =>
          obtain ⟨rfl, rfl⟩ := heq _ _ htaken.top
          rw [Callback.Passes.target hk] at hk'
          cases hk'
        | pass k' n' o' leaves htaken hk' =>
          obtain ⟨rfl, rfl⟩ := heq _ _ htaken.top
          obtain rfl := Callback.Passes.inj hk hk'
          exact hperf.settled
        | gathered k' m c index o' leaves htaken hk' =>
          obtain ⟨rfl, rfl⟩ := heq _ _ htaken.top
          rcases hk' with rfl | rfl
          · rcases hk with hk | ⟨m, hk | hk⟩ <;> cases hk
          · rcases hk with hk | ⟨m, hk | hk⟩ <;> cases hk
        | through c index leaves _ _ _ _ _ htop => exact hnil htop
        | next c index p todo leaves rest _ _ _ _ _ _ htop => exact hnil htop
    · exact .inr (.inl hcall)
  · rw [hent.returned] at hmem
    rcases hbegan.returned with heq | ⟨kind', n', result, heq, -, hvalue⟩
    · exact hlater.fate n (h.valued kind n v (heq ▸ hmem))
    · rw [heq, List.mem_append, List.mem_singleton] at hmem
      rcases hmem with hmem | hmem
      · exact hlater.fate n (h.valued kind n v hmem)
      · cases hmem
        obtain rfl := hvalue v rfl
        exact hperf.settled

/-- The promises of `all`, `any` and `race` are not those of `then`. -/
structure Registered (s : State V Err) : Prop where
  lt : ∀ c, (s.gathers c).isSome = true → c < s.next
  user : ∀ x kind n, (x, .user kind n) ∈ s.log → s.gathers n = none

theorem register_lt {c index : Nat} {todo : List Nat} (h : s.Framed)
    (hmem : (c, index, todo) ∈ s.registers) : c < s.next ∧ ∀ p ∈ todo, p < s.next := by
  obtain ⟨f, hf, hregister⟩ := List.mem_filterMap.mp hmem
  have hvalid := h.valid f hf
  cases f with
  | register c' index' todo' =>
    cases hregister
    exact hvalid
  | call k o => cases hregister
  | final k => cases hregister
  | running job => cases hregister
  | after p rejected => cases hregister
  | direct p => cases hregister

theorem gathers_step {a : Act V Err} {e : Effect V Err} (hbegan : Began env s s' a e)
    (hprep : Prepared env s s' e) (hperf : Performed env s' e t) (n : Nat)
    (hsome : (t.gathers n).isSome = true) :
    (s.gathers n).isSome = true ∨ n = s.next ∧ s.next < t.next := by
  have hent := hperf.entered
  rw [hent.gathers] at hsome
  have hsame : s'.gathers = s.gathers →
      (s.gathers n).isSome = true ∨ n = s.next ∧ s.next < t.next := fun heq => .inl (heq ▸ hsome)
  have hnew : ∀ g, s'.gathers = Function.update s.gathers s.next (some g) → s.next < s'.next →
      (s.gathers n).isSome = true ∨ n = s.next ∧ s.next < t.next := by
    intro g heq hlt
    by_cases hn : n = s.next
    · exact .inr ⟨hn, hperf.next.symm ▸ hlt⟩
    · rw [heq, Function.update_of_ne hn] at hsome
      exact .inl hsome
  cases hbegan with
  | idle a hkept => exact hsame hkept.gathers
  | then_ p kind hasReject leaves hkept => exact hsame hkept.gathers
  | catcher p hkept => exact hsame hkept.gathers
  | settle p o hkept => exact hsame hkept.gathers
  | gatherNone mode isVoid hgathers => exact hnew _ hgathers hprep.admissible
  | gather mode isVoid inputs hgathers _ _ _ hregisters =>
    have hmem : (s.next, 0, inputs) ∈ s'.registers := by
      rw [hregisters]
      exact List.mem_cons_self
    exact hnew _ hgathers (register_lt hprep.framed hmem).1
  | ret kind n result leaves e hgathers => exact hsame hgathers
  | user kind n o leaves htaken hgathers => exact hsame hgathers
  | other k o leaves htaken hk hgathers => exact hsame hgathers
  | pass k n o leaves htaken hk hgathers => exact hsame hgathers
  | gathered k m c index o leaves htaken hk hjobs e he =>
    cases hg : s.gathers c with
    | none =>
      rw [hg] at he
      exact hsame he.1
    | some g =>
      rw [hg] at he
      by_cases hn : n = c
      · subst hn
        exact .inl (by rw [hg]; rfl)
      · rw [he.1, Function.update_of_ne hn] at hsome
        exact .inl hsome
  | through c index leaves _ hgathers => exact hsame hgathers
  | next c index p todo leaves rest _ _ hgathers => exact hsame hgathers

theorem user_of_attached (h : Attached s t) {x n : Nat} {kind : Kind} (hmem : (x, .user kind n) ∈ t.log) :
    (x, .user kind n) ∈ s.log ∨ n = s.next ∧ t.gathers = s.gathers := by
  cases h with
  | none hlog => exact .inl (hlog ▸ hmem)
  | then_ p kind₀ hasReject hlog _ _ hgathers =>
    rcases (hlog _ _).mp hmem with hmem | ⟨-, hk | hk⟩
    · exact .inl hmem
    · cases hk
      exact .inr ⟨rfl, hgathers⟩
    · cases kind₀ with
      | nothing => cases hasReject <;> cases hk
      | value => cases hk
      | promise isVoid => cases hk
  | catcher p hlog =>
    rcases (hlog _ _).mp hmem with hmem | ⟨-, hk⟩
    · exact .inl hmem
    · cases hk
  | inner isVoid n₀ p hlog =>
    rcases (hlog _ _).mp hmem with hmem | ⟨-, hk | hk⟩
    · exact .inl hmem
    · cases hk
    · cases hk
  | register c index p todo _ hlog =>
    rcases (hlog _ _).mp hmem with hmem | ⟨-, hk | hk⟩
    · exact .inl hmem
    · cases hk
    · cases hk

theorem Registered.step {a : Act V Err} {e : Effect V Err} (h : s.Registered) (hs : s.Sound env)
    (hbegan : Began env s s' a e) (hprep : Prepared env s s' e) (hperf : Performed env s' e t) :
    t.Registered := by
  have hlater := later_step hprep hperf
  refine ⟨fun c hc => ?_, fun x kind n hmem => ?_⟩
  · rcases gathers_step hbegan hprep hperf c hc with hold | ⟨rfl, hlt⟩
    · exact Nat.lt_of_lt_of_le (h.lt c hold) hlater.next
    · exact hlt
  · rw [← Option.not_isSome_iff_eq_none]
    intro hsome
    rcases user_of_attached (attached hbegan hprep hperf) hmem with hold | ⟨rfl, hgathers⟩
    · rcases gathers_step hbegan hprep hperf n hsome with hg | ⟨rfl, -⟩
      · rw [h.user x kind n hold] at hg
        cases hg
      · exact absurd (hs.user_lt hold) (Nat.lt_irrefl _)
    · exact absurd (h.lt s.next (hgathers ▸ hsome)) (Nat.lt_irrefl _)

/-- Functions return what their kind says. -/
def Fitting (s : State V Err) : Prop := ∀ kind n result, (kind, n, result) ∈ s.returned → kind.Fits result

theorem Fitting.step {a : Act V Err} {e : Effect V Err} (h : s.Fitting) (hbegan : Began env s s' a e)
    (hperf : Performed env s' e t) : t.Fitting := by
  intro kind n result hmem
  rw [hperf.entered.returned] at hmem
  rcases hbegan.returned with heq | ⟨kind', n', result', heq, hfits, -⟩
  · exact h kind n result (heq ▸ hmem)
  · rw [heq, List.mem_append, List.mem_singleton] at hmem
    rcases hmem with hmem | hmem
    · exact h kind n result hmem
    · cases hmem
      exact hfits

/-- What is known of any run. -/
structure Woven (env : Values V Err) (s : State V Err) : Prop where
  sound : s.Sound env
  ordered : s.Ordered
  wired : s.Wired
  ran : s.Ran
  fitting : s.Fitting
  handed : s.Handed
  registered : s.Registered

theorem woven_init : (init env : State V Err).Woven env where
  sound := sound_init
  ordered := ordered_init
  wired := wired_init
  ran _ _ := rfl
  fitting _ _ _ hmem := absurd hmem List.not_mem_nil
  handed :=
    ⟨fun _ hmem => absurd hmem List.not_mem_nil, fun _ _ _ hmem => absurd hmem List.not_mem_nil,
      fun _ _ _ hmem => absurd hmem List.not_mem_nil⟩
  registered := ⟨fun _ hsome => absurd hsome Bool.false_ne_true, fun _ _ _ _ => rfl⟩

theorem Woven.step {a : Act V Err} (h : s.Woven env) (hstep : s.step env a = some t) : t.Woven env := by
  obtain ⟨s', e, hbegan, hprep, hperf, -⟩ := step_began h.sound hstep
  exact
    { sound := h.sound.step hstep
      ordered := h.ordered.step h.sound hstep
      wired := h.wired.step h.sound hbegan hprep hperf
      ran := (h.ran.began hprep.quiet.calls hbegan).entered hperf.entered
      fitting := h.fitting.step hbegan hperf
      handed := h.handed.step h.ordered hbegan hprep hperf
      registered := h.registered.step h.sound hbegan hprep hperf }

end State

end Nodeoze.Event.Promises
