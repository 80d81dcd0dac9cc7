import Nodeoze.Lib.Endian

/-!
# Reading a byte stream that may end early

A `Reader` consumes a byte stream and carries a user state.  Three primitives see the end of the
stream: `get` and `peek` and `getn` report it as an error, while `getNum` fills the bytes that
are missing from an uninitialised local, whose content is the oracle `junk`.

What a writer produced is a list of `Chunk`s, one per call that put bytes on the stream.
`Reads p s ts a s'` says that `p` reads the chunks `ts` back: on the complete bytes it returns
`a` and stops exactly behind them, on every strict prefix that does not end inside a multi-byte
number it reports the end of the stream, and a number cut off at the very end is completed by
whatever the local held.  All three compose along `bind`, so a decoder is verified by reading its
encoder's chunk list from left to right.  `Fails p s ts` is the negative counterpart.
-/

namespace Reader

/-- What one call of the writer put on the stream: one byte, a multi-byte number, or a block. -/
inductive Chunk
  | byte (b : UInt8)
  | num (bs : List UInt8)
  | raw (bs : List UInt8)
  deriving DecidableEq, Repr

/-- The bytes of one chunk. -/
def Chunk.bytes : Chunk → List UInt8
  | .byte b => [b]
  | .num bs => bs
  | .raw bs => bs

/-- Whether the chunk is read by `getNum`. -/
def Chunk.isNum : Chunk → Bool
  | .num _ => true
  | _ => false

/-- The bytes of a chunk list. -/
def bytes (ts : List Chunk) : List UInt8 := ts.flatMap Chunk.bytes

@[simp] theorem bytes_nil : bytes [] = [] := rfl

@[simp] theorem bytes_cons (t : Chunk) (ts : List Chunk) : bytes (t :: ts) = t.bytes ++ bytes ts :=
  rfl

@[simp] theorem bytes_append (ts us : List Chunk) : bytes (ts ++ us) = bytes ts ++ bytes us := by
  simp [bytes]

/-- Whether a stream that ends after `k` bytes of `ts` ends inside a multi-byte number: all the
bytes in front of the number are there and at least one of its own is missing. -/
def cutsNum : Nat → List Chunk → Bool
  | _, [] => false
  | k, t :: ts =>
    if k < t.bytes.length then t.isNum else cutsNum (k - t.bytes.length) ts

theorem cutsNum_append (k : Nat) (ts us : List Chunk) :
    cutsNum k (ts ++ us) =
      if k < (bytes ts).length then cutsNum k ts else cutsNum (k - (bytes ts).length) us := by
  induction ts generalizing k with
  | nil => simp
  | cons t ts ih =>
    by_cases hk : k < t.bytes.length
    · have hlt : k < t.bytes.length + (bytes ts).length := by omega
      simp [cutsNum, hk, hlt]
    · simp only [List.cons_append, cutsNum, hk, if_false, ih, bytes_cons, List.length_append,
        Nat.sub_add_eq]
      split_ifs <;> first | rfl | omega

/-- The stream as a reader sees it: the position, the bytes still to come, the number of short
number reads so far, and the user state. -/
structure Input (σ : Type) where
  pos : Nat
  rest : List UInt8
  shorts : Nat
  user : σ

end Reader

/-- A reader with user state `σ` and errors `ε`.  `junk n i` is the byte at offset `i` of the
uninitialised local in the `n`-th number read that came up short. -/
def Reader (σ ε α : Type) : Type :=
  (Nat → Nat → UInt8) → Reader.Input σ → Except ε (α × Reader.Input σ)

namespace Reader

variable {σ ε α β γ : Type}

instance : Monad (Reader σ ε) where
  pure a := fun _ st => .ok (a, st)
  bind p f := fun junk st =>
    match p junk st with
    | .ok (a, st') => f a junk st'
    | .error e => .error e

/-- Report an error. -/
def throw (e : ε) : Reader σ ε α := fun _ _ => .error e

/-- What was computed without reading. -/
def ofExcept (r : Except ε α) : Reader σ ε α := fun _ st => r.map fun a => (a, st)

@[simp] theorem ofExcept_ok (a : α) : (ofExcept (.ok a) : Reader σ ε α) = pure a := rfl

@[simp] theorem ofExcept_error (e : ε) : (ofExcept (.error e) : Reader σ ε α) = throw e := rfl

/-- Take one byte. -/
def get (eof : ε) : Reader σ ε UInt8 := fun _ st =>
  match st.rest with
  | [] => .error eof
  | b :: r => .ok (b, { st with pos := st.pos + 1, rest := r })

/-- Look at the next byte without taking it. -/
def peek (eof : ε) : Reader σ ε UInt8 := fun _ st =>
  match st.rest with
  | [] => .error eof
  | b :: _ => .ok (b, st)

/-- Take exactly `n` bytes. -/
def getn (eof : ε) (n : Nat) : Reader σ ε (List UInt8) := fun _ st =>
  if st.rest.length < n then .error eof
  else .ok (st.rest.take n, { st with pos := st.pos + n, rest := st.rest.drop n })

/-- Take a `w`-byte number.  A short read is not noticed: the bytes that are missing are whatever
the local held. -/
def getNum (o : Endian.Order) (w : Nat) : Reader σ ε Nat := fun junk st =>
  if st.rest.length < w then
    let missing := (List.range (w - st.rest.length)).map fun i => junk st.shorts (st.rest.length + i)
    .ok (o.value (st.rest ++ missing),
      { st with pos := st.pos + st.rest.length, rest := [], shorts := st.shorts + 1 })
  else .ok (o.value (st.rest.take w), { st with pos := st.pos + w, rest := st.rest.drop w })

/-- The current position. -/
def position : Reader σ ε Nat := fun _ st => .ok (st.pos, st)

/-- Run a reader and go back to where it started. -/
def ahead (p : Reader σ ε α) : Reader σ ε α := fun junk st =>
  match p junk st with
  | .ok (a, st') => .ok (a, { st' with pos := st.pos, rest := st.rest })
  | .error e => .error e

/-- The user state. -/
def getUser : Reader σ ε σ := fun _ st => .ok (st.user, st)

/-- Replace the user state. -/
def setUser (s : σ) : Reader σ ε Unit := fun _ st => .ok ((), { st with user := s })

/-- Run `step` a given number of times, threading an accumulator. -/
def loop (step : β → Reader σ ε β) : Nat → β → Reader σ ε β
  | 0, b => pure b
  | n + 1, b => step b >>= loop step n

/-- Run readers one after the other and collect what they return. -/
def each : List (Reader σ ε α) → Reader σ ε (List α)
  | [] => pure []
  | p :: ps => do
    let a ← p
    let as ← each ps
    pure (a :: as)

theorem pure_apply (a : α) (junk : Nat → Nat → UInt8) (st : Input σ) :
    (pure a : Reader σ ε α) junk st = .ok (a, st) := rfl

theorem bind_ok {p : Reader σ ε α} {f : α → Reader σ ε β} {junk : Nat → Nat → UInt8}
    {st st' : Input σ} {a : α} (h : p junk st = .ok (a, st')) :
    (p >>= f) junk st = f a junk st' := by
  show (match p junk st with | .ok (a, st') => f a junk st' | .error e => .error e) = _
  rw [h]

theorem bind_error {p : Reader σ ε α} {f : α → Reader σ ε β} {junk : Nat → Nat → UInt8}
    {st : Input σ} {e : ε} (h : p junk st = .error e) : (p >>= f) junk st = .error e := by
  show (match p junk st with | .ok (a, st') => f a junk st' | .error e => .error e) = _
  rw [h]

instance : LawfulMonad (Reader σ ε) := LawfulMonad.mk' _
  (by
    intro α p
    funext junk st
    show (match p junk st with
        | .ok (a, st') => Except.ok (id a, st')
        | .error e => Except.error e) = p junk st
    cases p junk st <;> rfl)
  (by intros; rfl)
  (by
    intro α β γ p f g
    funext junk st
    show (match (match p junk st with | .ok (a, st') => f a junk st' | .error e => .error e) with
        | .ok (b, st') => g b junk st' | .error e => .error e) =
      (match p junk st with
        | .ok (a, st') =>
          (match f a junk st' with | .ok (b, st') => g b junk st' | .error e => .error e)
        | .error e => .error e)
    cases p junk st <;> rfl)

@[simp] theorem map_throw (e : ε) (f : α → β) :
    f <$> (throw e : Reader σ ε α) = throw e := rfl

/-- Report errors as errors of another type. -/
def mapError {δ : Type} (g : ε → δ) (p : Reader σ ε α) : Reader σ δ α := fun junk st =>
  match p junk st with
  | .ok r => .ok r
  | .error e => .error (g e)

/-- Read from the bytes `bs`, with a user state of their own, and come back. -/
def within {τ : Type} (bs : List UInt8) (t : τ) (p : Reader τ ε α) : Reader σ ε α := fun junk st =>
  match p junk ⟨0, bs, st.shorts, t⟩ with
  | .ok (a, st') => .ok (a, { st with shorts := st'.shorts })
  | .error e => .error e

/-- A loop that adds one element per round reads them all and folds. -/
theorem loop_eq_each (p : Reader σ ε α) (add : α → β → β) (n : Nat) (b : β) :
    loop (fun b => do let a ← p; pure (add a b)) n b =
      (do let as ← each (List.replicate n p); pure (as.foldl (fun b a => add a b) b)) := by
  induction n generalizing b with
  | zero => rfl
  | succ n ih =>
    simp only [loop, each, List.replicate_succ, bind_assoc, pure_bind, ih, List.foldl_cons]

/-! ### A number that is cut off -/

/-- The oracle that completes a cut number with the bytes that were lost makes the short read
invisible. -/
theorem getNum_short (o : Endian.Order) (bs : List UInt8) (k : Nat) (hk : k < bs.length)
    (pos n : Nat) (s : σ) :
    (getNum o bs.length : Reader σ ε Nat) (fun _ i => bs.getD i 0) ⟨pos, bs.take k, n, s⟩ =
      .ok (o.value bs, ⟨pos + k, [], n + 1, s⟩) := by
  have hfill :
      bs.take k ++ (List.range (bs.length - k)).map (fun i => bs[k + i]?.getD 0) = bs := by
    apply List.ext_getElem
    · simp; omega
    · intro i h1 h2
      by_cases hik : i < k
      · simp [hik, h2]
      · have hki : k + (i - k) = i := by omega
        simp [List.getElem_append, hik, hk.le, hki, h2]
  have hmin : min k bs.length = k := by omega
  simp [getNum, hmin, hk, hfill]

/-! ### Reading chunks back -/

/-- `p`, started in user state `s`, reads the chunks `ts` back as `a` and leaves user state `s'`. -/
structure Reads (eof : ε) (p : Reader σ ε α) (s : σ) (ts : List Chunk) (a : α) (s' : σ) :
    Prop where
  /-- The complete bytes are consumed exactly, whatever follows them. -/
  full : ∀ junk pos r n, p junk ⟨pos, bytes ts ++ r, n, s⟩ =
    .ok (a, ⟨pos + (bytes ts).length, r, n, s'⟩)
  /-- A strict prefix is noticed, unless it ends inside a multi-byte number. -/
  torn : ∀ junk pos n k, k < (bytes ts).length → cutsNum k ts = false →
    p junk ⟨pos, (bytes ts).take k, n, s⟩ = .error eof
  /-- A number that ends the chunks may lose its last bytes: the right junk hides the loss. -/
  mended : ∀ us bs vs, ts = us ++ .num bs :: vs → bytes vs = [] → ∀ j < bs.length, ∀ pos n,
    p (fun _ i => bs.getD i 0) ⟨pos, bytes us ++ bs.take j, n, s⟩ =
      .ok (a, ⟨pos + (bytes us).length + j, [], n + 1, s'⟩)

/-- `p`, started in user state `s`, reports an error on the chunks `ts`, whatever follows them. -/
def Fails (p : Reader σ ε α) (s : σ) (ts : List Chunk) : Prop :=
  ∀ junk pos r n, ∃ e, p junk ⟨pos, bytes ts ++ r, n, s⟩ = .error e

variable {eof : ε} {p : Reader σ ε α} {f : α → Reader σ ε β} {s s₁ s₂ : σ} {ts us : List Chunk}
  {a : α} {b : β}

theorem Reads.pure (a : α) (s : σ) : Reads eof (pure a : Reader σ ε α) s [] a s where
  full := by intro junk pos r n; simp [pure_apply]
  torn := by intro junk pos n k hk; simp at hk
  mended := by intro us bs vs hts; simp at hts

theorem Reads.bind (hp : Reads eof p s ts a s₁) (hf : Reads eof (f a) s₁ us b s₂) :
    Reads eof (p >>= f) s (ts ++ us) b s₂ where
  full := by
    intro junk pos r n
    rw [bytes_append, List.append_assoc, bind_ok (hp.full junk pos (bytes us ++ r) n),
      hf.full]
    simp [Nat.add_assoc]
  torn := by
    intro junk pos n k hk hcut
    rw [cutsNum_append] at hcut
    rw [bytes_append] at hk ⊢
    by_cases hts : k < (bytes ts).length
    · rw [List.take_append_of_le_length hts.le]
      exact bind_error (hp.torn junk pos n k hts (by simpa [hts] using hcut))
    · obtain ⟨j, rfl⟩ := Nat.exists_eq_add_of_le (Nat.le_of_not_lt hts)
      rw [List.take_length_add_append, bind_ok (hp.full junk pos _ n)]
      simp only [hts, if_false, Nat.add_sub_cancel_left] at hcut
      exact hf.torn junk _ n j (by simpa using hk) hcut
  mended := by
    intro cs bs vs hcs hvs j hj pos n
    rcases List.append_eq_append_iff.mp hcs with ⟨ds, rfl, hus⟩ | ⟨ds, hts, hds⟩
    · -- the number is in the second part
      rw [bytes_append, List.append_assoc, bind_ok (hp.full _ pos _ n),
        hf.mended ds bs vs hus hvs j hj]
      simp [Nat.add_assoc]
    · rcases List.cons_eq_append_iff.mp hds with ⟨rfl, hus⟩ | ⟨es, rfl, rfl⟩
      · -- the number starts the second part
        have hfull := hp.full (fun _ i => bs.getD i 0) pos (bs.take j) n
        rw [hts, List.append_nil] at hfull
        rw [bind_ok hfull]
        exact hf.mended [] bs vs hus hvs j hj _ n
      · -- the number is in the first part, and the second reads nothing
        rw [bytes_append, List.append_eq_nil_iff] at hvs
        have hfull := hf.full (fun _ i => bs.getD i 0) (pos + (bytes cs).length + j) [] (n + 1)
        rw [hvs.2] at hfull
        rw [bind_ok (hp.mended cs bs es hts hvs.1 j hj pos n)]
        simpa using hfull

/-- A step that reads nothing may stand in front. -/
theorem Reads.bind_nil (hp : Reads eof p s [] a s₁) (hf : Reads eof (f a) s₁ us b s₂) :
    Reads eof (p >>= f) s us b s₂ := by
  simpa using Reads.bind hp hf

/-- A step that reads nothing may stand behind. -/
theorem Reads.bind_pure (hp : Reads eof p s ts a s₁) (hf : f a = Pure.pure b) :
    Reads eof (p >>= f) s ts b s₁ := by
  have hpure : Reads eof (f a) s₁ [] b s₁ := by rw [hf]; exact Reads.pure b s₁
  simpa using Reads.bind hp hpure

theorem Reads.then_pure (g : α → β) (hp : Reads eof p s ts a s₁) :
    Reads eof (p >>= fun x => Pure.pure (g x)) s ts (g a) s₁ :=
  hp.bind_pure rfl

theorem Fails.bind_left (hp : Fails p s ts) (us : List Chunk) : Fails (p >>= f) s (ts ++ us) := by
  intro junk pos r n
  obtain ⟨e, he⟩ := hp junk pos (bytes us ++ r) n
  refine ⟨e, bind_error ?_⟩
  rw [bytes_append, List.append_assoc, he]

theorem Fails.bind (hp : Fails p s ts) : Fails (p >>= f) s ts := by
  simpa using hp.bind_left (f := f) []

theorem Fails.bind_right (hp : Reads eof p s ts a s₁) (hf : Fails (f a) s₁ us) :
    Fails (p >>= f) s (ts ++ us) := by
  intro junk pos r n
  obtain ⟨e, he⟩ := hf junk (pos + (bytes ts).length) r n
  refine ⟨e, ?_⟩
  rw [bytes_append, List.append_assoc, bind_ok (hp.full junk pos (bytes us ++ r) n), he]

theorem Fails.throw (e : ε) (s : σ) (ts : List Chunk) : Fails (throw e : Reader σ ε α) s ts :=
  fun _ _ _ _ => ⟨e, rfl⟩

/-- An error after every outcome of the first step. -/
theorem Fails.then_throw (e : ε) : Fails (p >>= fun _ => (Reader.throw e : Reader σ ε β)) s ts := by
  intro junk pos r n
  cases hp : p junk ⟨pos, bytes ts ++ r, n, s⟩ with
  | error e' => exact ⟨e', bind_error hp⟩
  | ok x =>
    obtain ⟨a, st⟩ := x
    exact ⟨e, bind_ok hp⟩

/-! ### The primitives -/

theorem Reads.get (c : UInt8) (s : σ) : Reads eof (get eof) s [.byte c] c s where
  full := by intro junk pos r n; simp [Reader.get, Chunk.bytes]
  torn := by
    intro junk pos n k hk hcut
    have hk0 : k = 0 := by simpa [Chunk.bytes] using hk
    simp [Reader.get, hk0]
  mended := by intro us bs vs hts; simp [List.singleton_eq_append_iff] at hts

theorem Reads.peek {f : UInt8 → Reader σ ε β} {c : UInt8}
    (hf : Reads eof (f c) s (.byte c :: ts) b s₁) :
    Reads eof (peek eof >>= f) s (.byte c :: ts) b s₁ where
  full := by
    intro junk pos r n
    rw [← hf.full junk pos r n]
    exact bind_ok rfl
  torn := by
    intro junk pos n k hk hcut
    cases k with
    | zero => exact bind_error rfl
    | succ k =>
      rw [← hf.torn junk pos n (k + 1) hk hcut]
      exact bind_ok rfl
  mended := by
    intro us bs vs hts hvs j hj pos n
    rw [← hf.mended us bs vs hts hvs j hj pos n]
    obtain _ | ⟨u, us⟩ := us
    · simp at hts
    · obtain ⟨rfl, -⟩ := List.cons.inj hts
      exact bind_ok rfl

theorem Fails.peek {f : UInt8 → Reader σ ε β} {c : UInt8} (hf : Fails (f c) s (.byte c :: ts)) :
    Fails (peek eof >>= f) s (.byte c :: ts) := by
  intro junk pos r n
  obtain ⟨e, he⟩ := hf junk pos r n
  exact ⟨e, by rw [← he]; exact bind_ok rfl⟩

theorem Reads.getn (bs : List UInt8) (s : σ) :
    Reads eof (getn eof bs.length) s [.raw bs] bs s where
  full := by intro junk pos r n; simp [Reader.getn, Chunk.bytes]
  torn := by
    intro junk pos n k hk hcut
    have hk' : k < bs.length := by simpa [Chunk.bytes] using hk
    simp [Reader.getn, Chunk.bytes, hk']
  mended := by intro us bs vs hts; simp [List.singleton_eq_append_iff] at hts

theorem Reads.getNum (o : Endian.Order) {w n : Nat} (hn : n < 256 ^ w) (s : σ) :
    Reads eof (getNum o w) s [.num (o.bytes w n)] n s where
  full := by
    intro junk pos r m
    simp [Reader.getNum, Chunk.bytes, Endian.Order.value_bytes_of_lt o hn]
  torn := by
    intro junk pos m k hk hcut
    have hk' : k < w := by simpa [Chunk.bytes] using hk
    simp [cutsNum, Chunk.bytes, Chunk.isNum, hk'] at hcut
  mended := by
    intro us bs vs hts hvs j hj pos m
    obtain ⟨rfl, hnum⟩ : us = [] ∧ o.bytes w n = bs := by
      simp [List.singleton_eq_append_iff] at hts
      tauto
    subst hnum
    have hshort := getNum_short o (o.bytes w n) j hj pos m s (ε := ε)
    simpa [Endian.Order.value_bytes_of_lt o hn] using hshort

theorem Reads.getUser (s : σ) : Reads eof (getUser : Reader σ ε σ) s [] s s where
  full := by intro junk pos r n; simp [Reader.getUser]
  torn := by intro junk pos n k hk; simp at hk
  mended := by intro us bs vs hts; simp at hts

theorem Reads.setUser (s s' : σ) : Reads eof (setUser s' : Reader σ ε Unit) s [] () s' where
  full := by intro junk pos r n; simp [Reader.setUser]
  torn := by intro junk pos n k hk; simp at hk
  mended := by intro us bs vs hts; simp at hts

theorem Reads.mapError {δ : Type} (g : ε → δ) (hp : Reads eof p s ts a s₁) :
    Reads (g eof) (mapError g p) s ts a s₁ where
  full := by intro junk pos r n; rw [Reader.mapError, hp.full]
  torn := by intro junk pos n k hk hcut; rw [Reader.mapError, hp.torn junk pos n k hk hcut]
  mended := by
    intro us bs vs hts hvs j hj pos n
    rw [Reader.mapError, hp.mended us bs vs hts hvs j hj pos n]

/-- Complete bytes elsewhere are read without taking any here. -/
theorem Reads.within {τ : Type} {t t₁ : τ} {eof' : ε} {q : Reader τ ε α}
    (hq : Reads eof' q t ts a t₁) (s : σ) : Reads eof (within (bytes ts) t q) s [] a s where
  full := by
    intro junk pos r n
    have hfull := hq.full junk 0 [] n
    rw [List.append_nil] at hfull
    rw [Reader.within, hfull]
    rfl
  torn := by intro junk pos n k hk; simp at hk
  mended := by intro us bs vs hts; simp at hts

/-! ### Reading complete bytes -/

/-- `p`, started in user state `s`, takes the bytes `bs` and leaves user state `s'`. -/
def Takes (p : Reader σ ε α) (s : σ) (bs : List UInt8) (a : α) (s' : σ) : Prop :=
  ∀ junk pos r n, p junk ⟨pos, bs ++ r, n, s⟩ = .ok (a, ⟨pos + bs.length, r, n, s'⟩)

theorem Reads.takes (hp : Reads eof p s ts a s₁) : Takes p s (bytes ts) a s₁ := hp.full

theorem Takes.pure (a : α) (s : σ) : Takes (pure a : Reader σ ε α) s [] a s :=
  fun _ _ _ _ => rfl

theorem Takes.getUser (s : σ) : Takes (getUser : Reader σ ε σ) s [] s s :=
  fun _ _ _ _ => rfl

theorem Takes.bind {bs cs : List UInt8} (hp : Takes p s bs a s₁) (hf : Takes (f a) s₁ cs b s₂) :
    Takes (p >>= f) s (bs ++ cs) b s₂ := by
  intro junk pos r n
  rw [List.append_assoc, bind_ok (hp junk pos (cs ++ r) n), hf]
  simp [Nat.add_assoc]

/-- Looking ahead takes nothing. -/
theorem Takes.ahead {bs : List UInt8} (hp : Takes p s bs a s) (junk : Nat → Nat → UInt8)
    (pos : Nat) (r : List UInt8) (n : Nat) :
    Reader.ahead p junk ⟨pos, bs ++ r, n, s⟩ = .ok (a, ⟨pos, bs ++ r, n, s⟩) := by
  rw [Reader.ahead, hp]

/-! ### What a run does to the user state -/

section Grows

variable {τ : Type} [Preorder τ] {μ : σ → τ} {q : Reader σ ε α}

/-- No run of `p` that returns makes the measure `μ` of the user state smaller. -/
def Grows (μ : σ → τ) (p : Reader σ ε α) : Prop :=
  ∀ junk st a st', p junk st = .ok (a, st') → μ st.user ≤ μ st'.user

theorem Grows.pure (a : α) : Grows μ (pure a : Reader σ ε α) := by
  intro junk st b st' h
  cases h
  exact le_rfl

theorem Grows.throw (e : ε) : Grows μ (throw e : Reader σ ε α) :=
  fun _ _ _ _ h => nomatch h

theorem Grows.bind (hp : Grows μ p) (hf : ∀ a, Grows μ (f a)) : Grows μ (p >>= f) := by
  intro junk st b st' h
  cases hrun : p junk st with
  | error e =>
    rw [bind_error hrun] at h
    cases h
  | ok x =>
    obtain ⟨a, st₁⟩ := x
    rw [bind_ok hrun] at h
    exact (hp junk st a st₁ hrun).trans (hf a junk st₁ b st' h)

theorem Grows.ite {c : Prop} [Decidable c] (hp : Grows μ p) (hq : Grows μ q) :
    Grows μ (if c then p else q) := by
  split_ifs
  · exact hp
  · exact hq

theorem Grows.get : Grows μ (get eof : Reader σ ε UInt8) := by
  rintro junk ⟨pos, _ | ⟨b, r⟩, n, s⟩ a st' h <;> cases h
  exact le_rfl

theorem Grows.peek : Grows μ (peek eof : Reader σ ε UInt8) := by
  rintro junk ⟨pos, _ | ⟨b, r⟩, n, s⟩ a st' h <;> cases h
  exact le_rfl

theorem Grows.getn (n : Nat) : Grows μ (getn eof n : Reader σ ε (List UInt8)) := by
  intro junk st a st' h
  unfold Reader.getn at h
  split_ifs at h
  cases h
  exact le_rfl

theorem Grows.getNum (o : Endian.Order) (w : Nat) : Grows μ (getNum o w : Reader σ ε Nat) := by
  intro junk st a st' h
  unfold Reader.getNum at h
  split_ifs at h <;> cases h <;> exact le_rfl

theorem Grows.getUser : Grows μ (getUser : Reader σ ε σ) := by
  intro junk st a st' h
  cases h
  exact le_rfl

theorem Grows.each {ps : List (Reader σ ε α)} (h : ∀ p ∈ ps, Grows μ p) : Grows μ (each ps) := by
  induction ps with
  | nil => exact Grows.pure []
  | cons p ps ih =>
    obtain ⟨hp, hps⟩ := List.forall_mem_cons.mp h
    exact hp.bind fun a => (ih hps).bind fun as => Grows.pure (a :: as)

theorem Grows.loop {step : β → Reader σ ε β} (h : ∀ b, Grows μ (step b)) (n : Nat) :
    ∀ b, Grows μ (loop step n b) := by
  induction n with
  | zero => exact Grows.pure
  | succ n ih => exact fun b => (h b).bind ih

end Grows

/-! ### What a run can return -/

section Yields

variable {Q : α → Prop} {q : Reader σ ε α}

/-- Whatever `p` returns satisfies `Q`. -/
def Yields (Q : α → Prop) (p : Reader σ ε α) : Prop :=
  ∀ junk st a st', p junk st = .ok (a, st') → Q a

theorem Yields.pure (h : Q a) : Yields Q (pure a : Reader σ ε α) := by
  intro junk st b st' hrun
  cases hrun
  exact h

theorem Yields.throw (e : ε) : Yields Q (throw e : Reader σ ε α) :=
  fun _ _ _ _ h => nomatch h

theorem Yields.ite {c : Prop} [Decidable c] (hp : Yields Q p) (hq : Yields Q q) :
    Yields Q (if c then p else q) := by
  split_ifs
  · exact hp
  · exact hq

end Yields

/-! ### Encodings that cannot be confused -/

/-- Neither list starts with the other. -/
def Diverge (l l' : List α) : Prop := ¬ l <+: l' ∧ ¬ l' <+: l

theorem Diverge.ne {l l' : List α} (h : Diverge l l') : l ≠ l' := by
  rintro rfl
  exact h.1 List.prefix_rfl

theorem Diverge.append {l l' : List α} (h : Diverge l l') (r r' : List α) :
    Diverge (l ++ r) (l' ++ r') := by
  have hno : ∀ {k k' : List α} (r r' : List α), Diverge k k' → ¬ k ++ r <+: k' ++ r' := by
    intro k k' r r' hk hpre
    rcases List.prefix_or_prefix_of_prefix ((List.prefix_append k r).trans hpre)
      (List.prefix_append k' r') with h1 | h2
    · exact hk.1 h1
    · exact hk.2 h2
  exact ⟨hno r r' h, hno r' r ⟨h.2, h.1⟩⟩

theorem Diverge.append_left {l l' : List α} (h : Diverge l l') (k : List α) :
    Diverge (k ++ l) (k ++ l') :=
  ⟨fun hpre => h.1 ((List.prefix_append_right_inj k).mp hpre),
    fun hpre => h.2 ((List.prefix_append_right_inj k).mp hpre)⟩

theorem diverge_cons {x y : α} (h : x ≠ y) (l l' : List α) : Diverge (x :: l) (y :: l') :=
  ⟨fun hpre => h (List.cons_prefix_cons.mp hpre).1,
    fun hpre => h (List.cons_prefix_cons.mp hpre).1.symm⟩

/-- What one reader reads as different values differs somewhere. -/
theorem Reads.diverge {a' : α} (hp : Reads eof p s ts a s₁) (hq : Reads eof p s us a' s₂)
    (hne : a ≠ a') : Diverge (bytes ts) (bytes us) := by
  have hno : ∀ {ts us : List Chunk} {a a' : α} {s₁ s₂ : σ}, Reads eof p s ts a s₁ →
      Reads eof p s us a' s₂ → a ≠ a' → ¬ bytes ts <+: bytes us := by
    rintro ts us a a' s₁ s₂ hp hq hne ⟨r, hr⟩
    have h1 := hp.full (fun _ _ => 0) 0 r 0
    have h2 := hq.full (fun _ _ => 0) 0 [] 0
    rw [hr] at h1
    rw [List.append_nil, h1] at h2
    exact hne (congrArg Prod.fst (Except.ok.inj h2))
  exact ⟨hno hp hq hne, hno hq hp hne.symm⟩

end Reader
