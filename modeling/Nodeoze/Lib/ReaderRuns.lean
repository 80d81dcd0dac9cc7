import Nodeoze.Lib.Reader

/-!
# Runs of readers

Three facts about whole runs of a `Reader` that compose along `bind`.  `Consumes e n k p` says how much
a run takes, at least `k` bytes, and that it does not end in the error `e` as long as it has fewer
than `n` bytes in front of it; a recursion that takes a byte on every level then needs no more levels
than there are bytes.  `Mirrors f R p q` says that `q` ends as `p` does, in the same place and with
the image of its user state under `f`.  `Ensures I p Q` says what comes back from a user state that
satisfies `I`, and that the next one does too.  A `Plain` reader is made of the primitives alone, so it
has the first two at once, and of the third it keeps the user state.
-/

namespace Reader

variable {σ τ ε α β : Type}

/-! ### What a run takes -/

structure Consumes (e : ε) (n k : Nat) (p : Reader σ ε α) : Prop where
  never : ∀ junk st, st.rest.length < n → p junk st ≠ .error e
  takes : ∀ junk st a st', p junk st = .ok (a, st') → st'.rest.length + k ≤ st.rest.length

namespace Consumes

variable {e e' eof : ε} {n m k l : Nat} {p q : Reader σ ε α} {f : α → Reader σ ε β}

theorem imp (h : Consumes e n k p) (hm : m ≤ n) (hl : l ≤ k) : Consumes e m l p where
  never := fun junk st hlt => h.never junk st (hlt.trans_le hm)
  takes := fun junk st a st' hrun => (Nat.add_le_add_left hl _).trans (h.takes junk st a st' hrun)

theorem pure (a : α) : Consumes e n 0 (pure a : Reader σ ε α) where
  never := fun _ _ _ h => nomatch h
  takes := by
    intro junk st b st' h
    cases h
    exact le_rfl

theorem throw (h : e' ≠ e) : Consumes e n k (throw e' : Reader σ ε α) where
  never := fun _ _ _ hrun => h (Except.error.inj hrun)
  takes := fun _ _ _ _ h => nomatch h

/-- What the first step has taken is no longer in front of the second. -/
theorem bind (hp : Consumes e n k p) (hf : ∀ a, Consumes e (n - k) l (f a)) :
    Consumes e n (k + l) (p >>= f) where
  never := by
    intro junk st hlt
    cases hrun : p junk st with
    | error e' =>
      rw [bind_error hrun]
      intro heq
      obtain rfl := Except.error.inj heq
      exact hp.never junk st hlt hrun
    | ok x =>
      obtain ⟨a, st₁⟩ := x
      have htook := hp.takes junk st a st₁ hrun
      rw [bind_ok hrun]
      exact (hf a).never junk st₁ (by omega)
  takes := by
    intro junk st b st' h
    cases hrun : p junk st with
    | error e' =>
      rw [bind_error hrun] at h
      cases h
    | ok x =>
      obtain ⟨a, st₁⟩ := x
      rw [bind_ok hrun] at h
      have htook := hp.takes junk st a st₁ hrun
      have htook' := (hf a).takes junk st₁ b st' h
      omega

/-- The second step may take nothing. -/
theorem andThen (hp : Consumes e n k p) (hf : ∀ a, Consumes e n 0 (f a)) :
    Consumes e n k (p >>= f) :=
  bind hp fun a => (hf a).imp (Nat.sub_le n k) le_rfl

/-- Behind a byte the second step has one byte less in front of it. -/
theorem behind (hp : Consumes e (n + 1) 1 p) (hf : ∀ a, Consumes e n 0 (f a)) :
    Consumes e (n + 1) 0 (p >>= f) :=
  imp (bind hp hf) le_rfl (Nat.zero_le _)

theorem ite {c : Prop} [Decidable c] (hp : Consumes e n k p) (hq : Consumes e n k q) :
    Consumes e n k (if c then p else q) := by
  split_ifs
  · exact hp
  · exact hq

theorem get (h : eof ≠ e) : Consumes e n 1 (get eof : Reader σ ε UInt8) where
  never := by
    rintro junk ⟨pos, _ | ⟨b, r⟩, i, s⟩ _ hrun
    · exact h (Except.error.inj hrun)
    · cases hrun
  takes := by
    rintro junk ⟨pos, _ | ⟨b, r⟩, i, s⟩ a st' hrun <;> cases hrun
    exact le_rfl

theorem peek (h : eof ≠ e) : Consumes e n 0 (peek eof : Reader σ ε UInt8) where
  never := by
    rintro junk ⟨pos, _ | ⟨b, r⟩, i, s⟩ _ hrun
    · exact h (Except.error.inj hrun)
    · cases hrun
  takes := by
    rintro junk ⟨pos, _ | ⟨b, r⟩, i, s⟩ a st' hrun <;> cases hrun
    exact le_rfl

theorem getn (h : eof ≠ e) (w : Nat) : Consumes e n 0 (getn eof w : Reader σ ε (List UInt8)) where
  never := by
    intro junk st _ hrun
    unfold Reader.getn at hrun
    split_ifs at hrun
    exact h (Except.error.inj hrun)
  takes := by
    intro junk st a st' hrun
    unfold Reader.getn at hrun
    split_ifs at hrun
    cases hrun
    simp

theorem getNum (o : Endian.Order) (w : Nat) : Consumes e n 0 (getNum o w : Reader σ ε Nat) where
  never := by
    intro junk st _ hrun
    unfold Reader.getNum at hrun
    split_ifs at hrun
  takes := by
    intro junk st a st' hrun
    unfold Reader.getNum at hrun
    split_ifs at hrun <;> cases hrun <;> simp

theorem getUser : Consumes e n 0 (getUser : Reader σ ε σ) where
  never := fun _ _ _ h => nomatch h
  takes := by
    intro junk st a st' h
    cases h
    exact le_rfl

theorem setUser (s : σ) : Consumes e n 0 (setUser s : Reader σ ε Unit) where
  never := fun _ _ _ h => nomatch h
  takes := by
    intro junk st a st' h
    cases h
    exact le_rfl

theorem each {ps : List (Reader σ ε α)} (h : ∀ p ∈ ps, Consumes e n 0 p) :
    Consumes e n 0 (each ps) := by
  induction ps with
  | nil => exact .pure []
  | cons p ps ih =>
    obtain ⟨hp, hps⟩ := List.forall_mem_cons.mp h
    exact hp.andThen fun a => (ih hps).andThen fun as => .pure (a :: as)

theorem loop {step : β → Reader σ ε β} (h : ∀ b, Consumes e n 0 (step b)) (i : Nat) :
    ∀ b, Consumes e n 0 (loop step i b) := by
  induction i with
  | zero => exact Consumes.pure
  | succ i ih => exact fun b => (h b).andThen ih

end Consumes

/-! ### Mirrored runs -/

/-- The same input with another user state. -/
def Input.onUser (f : σ → τ) (st : Input σ) : Input τ := ⟨st.pos, st.rest, st.shorts, f st.user⟩

def Mirrors (f : σ → τ) (R : α → β → Prop) (p : Reader σ ε α) (q : Reader τ ε β) : Prop :=
  ∀ junk st, (∃ e, p junk st = .error e ∧ q junk (st.onUser f) = .error e) ∨
    ∃ a b st', p junk st = .ok (a, st') ∧ q junk (st.onUser f) = .ok (b, st'.onUser f) ∧ R a b

namespace Mirrors

variable {γ δ : Type} {f : σ → τ} {R : α → β → Prop} {S : γ → δ → Prop} {p p' : Reader σ ε α}
  {q q' : Reader τ ε β} {k : α → Reader σ ε γ} {l : β → Reader τ ε δ}

theorem imp {R' : α → β → Prop} (hp : Mirrors f R p q) (h : ∀ a b, R a b → R' a b) :
    Mirrors f R' p q := by
  intro junk st
  refine (hp junk st).imp id ?_
  rintro ⟨a, b, st', hrun, hrun', hab⟩
  exact ⟨a, b, st', hrun, hrun', h a b hab⟩

theorem pure {a : α} {b : β} (h : R a b) :
    Mirrors f R (pure a : Reader σ ε α) (pure b : Reader τ ε β) :=
  fun _ st => .inr ⟨a, b, st, rfl, rfl, h⟩

theorem throw (e : ε) : Mirrors f R (throw e : Reader σ ε α) (throw e : Reader τ ε β) :=
  fun _ _ => .inl ⟨e, rfl, rfl⟩

theorem ofExcept (r : Except ε α) :
    Mirrors f Eq (ofExcept r : Reader σ ε α) (ofExcept r : Reader τ ε α) := by
  cases r with
  | error e => exact .throw e
  | ok a => exact .pure rfl

theorem bind (hp : Mirrors f R p q) (hk : ∀ a b, R a b → Mirrors f S (k a) (l b)) :
    Mirrors f S (p >>= k) (q >>= l) := by
  intro junk st
  rcases hp junk st with ⟨e, he, he'⟩ | ⟨a, b, st₁, hrun, hrun', hab⟩
  · exact .inl ⟨e, bind_error he, bind_error he'⟩
  · rw [bind_ok hrun, bind_ok hrun']
    exact hk a b hab junk st₁

/-- What comes back on the left may be wrapped. -/
theorem wrap (g : α → γ) {R' : γ → β → Prop} (hp : Mirrors f R p q)
    (h : ∀ a b, R a b → R' (g a) b) : Mirrors f R' (p >>= fun a => Pure.pure (g a)) q := by
  have hbind : Mirrors f R' (p >>= fun a => Pure.pure (g a)) (q >>= Pure.pure) :=
    hp.bind fun a b hab => .pure (h a b hab)
  rwa [bind_pure] at hbind

theorem ite {c : Prop} [Decidable c] (hp : Mirrors f R p q) (hq : Mirrors f R p' q') :
    Mirrors f R (if c then p else p') (if c then q else q') := by
  split_ifs
  · exact hp
  · exact hq

theorem get (eof : ε) :
    Mirrors f Eq (get eof : Reader σ ε UInt8) (get eof : Reader τ ε UInt8) := by
  rintro junk ⟨pos, _ | ⟨b, r⟩, n, s⟩
  · exact .inl ⟨eof, rfl, rfl⟩
  · exact .inr ⟨b, b, _, rfl, rfl, rfl⟩

theorem peek (eof : ε) :
    Mirrors f Eq (peek eof : Reader σ ε UInt8) (peek eof : Reader τ ε UInt8) := by
  rintro junk ⟨pos, _ | ⟨b, r⟩, n, s⟩
  · exact .inl ⟨eof, rfl, rfl⟩
  · exact .inr ⟨b, b, _, rfl, rfl, rfl⟩

theorem getn (eof : ε) (w : Nat) : Mirrors f Eq (getn eof w : Reader σ ε (List UInt8))
    (getn eof w : Reader τ ε (List UInt8)) := by
  rintro junk ⟨pos, r, n, s⟩
  by_cases h : r.length < w
  · exact .inl ⟨eof, if_pos h, if_pos h⟩
  · exact .inr ⟨_, _, _, if_neg h, if_neg h, rfl⟩

theorem getNum (o : Endian.Order) (w : Nat) :
    Mirrors f Eq (getNum o w : Reader σ ε Nat) (getNum o w : Reader τ ε Nat) := by
  rintro junk ⟨pos, r, n, s⟩
  by_cases h : r.length < w
  · exact .inr ⟨_, _, _, if_pos h, if_pos h, rfl⟩
  · exact .inr ⟨_, _, _, if_neg h, if_neg h, rfl⟩

theorem getUser : Mirrors f (fun s t => t = f s) (getUser : Reader σ ε σ) (getUser : Reader τ ε τ) :=
  fun _ st => .inr ⟨st.user, f st.user, st, rfl, rfl, rfl⟩

theorem setUser {s : σ} {t : τ} (h : t = f s) :
    Mirrors f (fun _ _ => True) (setUser s : Reader σ ε Unit) (setUser t : Reader τ ε Unit) := by
  subst h
  exact fun _ st => .inr ⟨(), (), { st with user := s }, rfl, rfl, trivial⟩

theorem each {ps : List (Reader σ ε α)} {qs : List (Reader τ ε β)}
    (h : List.Forall₂ (Mirrors f R) ps qs) :
    Mirrors f (List.Forall₂ R) (each ps) (each qs) := by
  induction h with
  | nil => exact .pure .nil
  | cons hp _ ih =>
    exact hp.bind fun a b hab => ih.bind fun as bs habs => .pure (.cons hab habs)

theorem loop {R : α → β → Prop} {step : α → Reader σ ε α} {step' : β → Reader τ ε β}
    (h : ∀ a b, R a b → Mirrors f R (step a) (step' b)) (n : Nat) :
    ∀ a b, R a b → Mirrors f R (loop step n a) (loop step' n b) := by
  induction n with
  | zero => exact fun a b hab => .pure hab
  | succ n ih => exact fun a b hab => (h a b hab).bind ih

end Mirrors

/-! ### What a run returns -/

/-- From a user state in `I` a run that ends well returns a value in `Q`, and leaves a user state in
`I`. -/
def Ensures (I : σ → Prop) (p : Reader σ ε α) (Q : α → Prop) : Prop :=
  ∀ junk st a st', I st.user → p junk st = .ok (a, st') → Q a ∧ I st'.user

namespace Ensures

variable {I : σ → Prop} {p q : Reader σ ε α} {f : α → Reader σ ε β} {Q : α → Prop} {R : β → Prop}

theorem imp (hp : Ensures I p Q) {Q' : α → Prop} (h : ∀ a, Q a → Q' a) : Ensures I p Q' := by
  intro junk st a st' hst hrun
  exact (hp junk st a st' hst hrun).imp (h a) id

theorem pure {a : α} (h : Q a) : Ensures I (pure a : Reader σ ε α) Q := by
  intro junk st b st' hst hrun
  obtain ⟨rfl, rfl⟩ := Prod.mk.inj (Except.ok.inj hrun)
  exact ⟨h, hst⟩

theorem throw (e : ε) : Ensures I (throw e : Reader σ ε α) Q :=
  fun _ _ _ _ _ hrun => nomatch hrun

theorem bind (hp : Ensures I p Q) (hf : ∀ a, Q a → Ensures I (f a) R) : Ensures I (p >>= f) R := by
  intro junk st b st' hst hrun
  cases hfirst : p junk st with
  | error e =>
    rw [bind_error hfirst] at hrun
    cases hrun
  | ok x =>
    rw [bind_ok hfirst] at hrun
    obtain ⟨ha, hst₁⟩ := hp junk st x.1 x.2 hst hfirst
    exact hf x.1 ha junk x.2 b st' hst₁ hrun

/-- What comes back may be wrapped. -/
theorem wrap (g : α → β) (hp : Ensures I p Q) (h : ∀ a, Q a → R (g a)) :
    Ensures I (p >>= fun a => Pure.pure (g a)) R :=
  hp.bind fun a ha => .pure (h a ha)

theorem ite {c : Prop} [Decidable c] (hp : Ensures I p Q) (hq : Ensures I q Q) :
    Ensures I (if c then p else q) Q := by
  split_ifs
  · exact hp
  · exact hq

theorem peek (eof : ε) : Ensures I (peek eof : Reader σ ε UInt8) fun _ => True := by
  rintro junk ⟨pos, _ | ⟨b, r⟩, k, s⟩ a st' hst hrun
  · cases hrun
  · obtain ⟨rfl, rfl⟩ := Prod.mk.inj (Except.ok.inj hrun)
    exact ⟨trivial, hst⟩

theorem getn (eof : ε) (n : Nat) :
    Ensures I (getn eof n : Reader σ ε (List UInt8)) (·.length = n) := by
  intro junk st a st' hst hrun
  unfold Reader.getn at hrun
  split_ifs at hrun with h
  obtain ⟨rfl, rfl⟩ := Prod.mk.inj (Except.ok.inj hrun)
  exact ⟨List.length_take_of_le (Nat.not_lt.mp h), hst⟩

theorem getNum (o : Endian.Order) (w : Nat) :
    Ensures I (getNum o w : Reader σ ε Nat) (· < 256 ^ w) := by
  intro junk st a st' hst hrun
  unfold Reader.getNum at hrun
  split_ifs at hrun with h
  · obtain ⟨rfl, rfl⟩ := Prod.mk.inj (Except.ok.inj hrun)
    refine ⟨(o.value_lt _).trans_eq ?_, hst⟩
    rw [List.length_append, List.length_map, List.length_range]
    congr 1
    omega
  · obtain ⟨rfl, rfl⟩ := Prod.mk.inj (Except.ok.inj hrun)
    refine ⟨(o.value_lt _).trans_eq ?_, hst⟩
    rw [List.length_take]
    congr 1
    omega

theorem ahead (hp : Ensures I p Q) : Ensures I (ahead p) Q := by
  intro junk st a st' hst hrun
  unfold Reader.ahead at hrun
  cases hinner : p junk st with
  | error e =>
    rw [hinner] at hrun
    cases hrun
  | ok x =>
    rw [hinner] at hrun
    obtain ⟨rfl, rfl⟩ := Prod.mk.inj (Except.ok.inj hrun)
    exact hp junk st x.1 x.2 hst hinner

theorem getUser : Ensures I (getUser : Reader σ ε σ) I := by
  intro junk st s st' hst hrun
  obtain ⟨rfl, rfl⟩ := Prod.mk.inj (Except.ok.inj hrun)
  exact ⟨hst, hst⟩

theorem setUser {s : σ} (h : I s) : Ensures I (setUser s : Reader σ ε Unit) fun _ => True := by
  intro junk st a st' hst hrun
  obtain ⟨rfl, rfl⟩ := Prod.mk.inj (Except.ok.inj hrun)
  exact ⟨trivial, h⟩

theorem each {ps : List (Reader σ ε α)} (h : ∀ p ∈ ps, Ensures I p Q) :
    Ensures I (each ps) fun as => as.length = ps.length ∧ ∀ a ∈ as, Q a := by
  induction ps with
  | nil => exact .pure ⟨rfl, fun _ h => nomatch h⟩
  | cons p ps ih =>
    obtain ⟨hp, hps⟩ := List.forall_mem_cons.mp h
    refine hp.bind fun a ha => (ih hps).wrap (a :: ·) ?_
    rintro as ⟨hlen, has⟩
    exact ⟨congrArg Nat.succ hlen, List.forall_mem_cons.mpr ⟨ha, has⟩⟩

/-- What holds after `i` rounds may depend on `i`. -/
theorem loop {J : Nat → β → Prop} {step : β → Reader σ ε β}
    (h : ∀ i b, J i b → Ensures I (step b) (J (i + 1))) (n : Nat) :
    ∀ i b, J i b → Ensures I (loop step n b) (J (i + n)) := by
  induction n with
  | zero => exact fun i b hb => .pure hb
  | succ n ih =>
    intro i b hb
    refine (h i b hb).bind fun c hc => ?_
    rw [← Nat.add_assoc, Nat.add_right_comm]
    exact ih (i + 1) c hc

end Ensures

/-! ### Plain readers -/

/-- Readers made of the primitives, which leave the user state alone; their errors are in `E`. -/
inductive Plain (E : ε → Prop) : {α : Type} → (∀ σ : Type, Reader σ ε α) → Prop
  | pure {α : Type} (a : α) : Plain E fun _ => Pure.pure a
  | throw {α : Type} {e : ε} : E e → Plain E fun σ => (throw e : Reader σ ε α)
  | get {e : ε} : E e → Plain E fun σ => (get e : Reader σ ε UInt8)
  | getn {e : ε} (n : Nat) : E e → Plain E fun σ => (getn e n : Reader σ ε (List UInt8))
  | getNum (o : Endian.Order) (w : Nat) : Plain E fun σ => (getNum o w : Reader σ ε Nat)
  | bind {α β : Type} {p : ∀ σ : Type, Reader σ ε α} {f : α → ∀ σ : Type, Reader σ ε β} :
      Plain E p → (∀ a, Plain E (f a)) → Plain E fun σ => p σ >>= fun a => f a σ

namespace Plain

variable {E : ε → Prop} {p q : ∀ σ : Type, Reader σ ε α}

theorem ite {c : Prop} [Decidable c] (hp : Plain E p) (hq : Plain E q) :
    Plain E fun σ => if c then p σ else q σ := by
  by_cases h : c
  · simpa only [h, if_true] using hp
  · simpa only [h, if_false] using hq

theorem raises (h : Plain E p) {junk : Nat → Nat → UInt8} {st : Input σ} {e : ε}
    (hrun : p σ junk st = .error e) : E e := by
  induction h generalizing st with
  | pure a => cases hrun
  | throw he =>
    obtain rfl := Except.error.inj hrun
    exact he
  | get he =>
    obtain ⟨pos, _ | ⟨b, r⟩, k, s⟩ := st
    · obtain rfl := Except.error.inj hrun
      exact he
    · cases hrun
  | getn n he =>
    beta_reduce at hrun
    unfold Reader.getn at hrun
    split_ifs at hrun
    obtain rfl := Except.error.inj hrun
    exact he
  | getNum o w =>
    beta_reduce at hrun
    unfold Reader.getNum at hrun
    split_ifs at hrun
  | @bind _ _ p _ _ _ ihp ihf =>
    beta_reduce at hrun
    cases hp : p σ junk st with
    | error e' =>
      rw [bind_error hp] at hrun
      obtain rfl := Except.error.inj hrun
      exact ihp hp
    | ok x =>
      rw [bind_ok hp] at hrun
      exact ihf x.1 hrun

theorem consumes (h : Plain E p) {e : ε} (he : ¬ E e) (n : Nat) (σ : Type) :
    Consumes e n 0 (p σ) := by
  have hne : ∀ {e'}, E e' → e' ≠ e := by
    rintro e' h rfl
    exact he h
  induction h generalizing n with
  | pure a => exact .pure a
  | throw h => exact .throw (hne h)
  | get h => exact (Consumes.get (hne h)).imp le_rfl (Nat.zero_le 1)
  | getn k h => exact .getn (hne h) k
  | getNum o w => exact .getNum o w
  | bind _ _ ihp ihf => exact (ihp n).andThen fun a => ihf a n

theorem mirrors (h : Plain E p) (f : σ → τ) : Mirrors f Eq (p σ) (p τ) := by
  induction h with
  | pure a => exact .pure rfl
  | throw => exact .throw _
  | get => exact .get _
  | getn k => exact .getn _ k
  | getNum o w => exact .getNum o w
  | bind _ _ ihp ihf =>
    refine ihp.bind ?_
    rintro a _ rfl
    exact ihf a

/-- The primitives leave the user state alone. -/
theorem ensures (h : Plain E p) (I : σ → Prop) : Ensures I (p σ) fun _ => True := by
  induction h with
  | pure a => exact .pure trivial
  | throw => exact .throw _
  | get =>
    rintro junk ⟨pos, _ | ⟨b, r⟩, k, s⟩ a st' hst hrun
    · cases hrun
    · obtain ⟨rfl, rfl⟩ := Prod.mk.inj (Except.ok.inj hrun)
      exact ⟨trivial, hst⟩
  | getn n => exact (Ensures.getn _ n).imp fun _ _ => trivial
  | getNum o w => exact (Ensures.getNum o w).imp fun _ _ => trivial
  | bind _ _ ihp ihf => exact ihp.bind fun a _ => ihf a

theorem grows (h : Plain E p) {ρ : Type} [Preorder ρ] (μ : σ → ρ) : Grows μ (p σ) := by
  induction h with
  | pure a => exact .pure a
  | throw => exact .throw _
  | get => exact .get
  | getn k => exact .getn k
  | getNum o w => exact .getNum o w
  | bind _ _ ihp ihf => exact ihp.bind ihf

end Plain

end Reader
