import Nodeoze.Lib.Partway
import Nodeoze.Bstream.Obstreambuf

/-!
# Writing functions that fail partway

The writing functions of `obstreambuf` with error codes: when a virtual function fails, the call ends
and the buffer stays as it is.  Over a device that says what its functions have done when they fail,
these calls keep that; without the states of failed calls they are the functions of `Obstreambuf`.
-/

namespace Nodeoze.Bstream

open Partway

/-- A call on a buffer that keeps what it has done when it fails. -/
abbrev Attempt (δ : Type) : Type → Type := EStateM Failure (Obstreambuf δ)

/-- The virtual functions and the memory of the window. -/
class Device (δ : Type) where
  store : Nat → List UInt8 → Attempt δ Unit
  reallyFlush : Attempt δ Unit
  reallyMakeWritable : Attempt δ Unit
  reallyTouch : Attempt δ Unit
  reallyOverflow : Nat → Attempt δ Unit

/-- What the caller of the throwing overload sees. -/
def Attempt.result {δ : Type} (m : Attempt δ Unit) (s : Obstreambuf δ) : Except Failure (Obstreambuf δ) :=
  match m.run s with
  | .ok _ s' => .ok s'
  | .error e _ => .error e

instance {δ : Type} [Device δ] : Virtuals δ where
  store s off src := Attempt.result (Device.store off src) s
  reallyFlush := Attempt.result Device.reallyFlush
  reallyMakeWritable := Attempt.result Device.reallyMakeWritable
  reallyTouch := Attempt.result Device.reallyTouch
  reallyOverflow s requested := Attempt.result (Device.reallyOverflow requested) s

namespace Attempt

section

variable {δ : Type}

theorem result_bind (m : Attempt δ Unit) (f : Unit → Attempt δ Unit) (s : Obstreambuf δ) :
    result (m >>= f) s = result m s >>= result (f ()) := by
  unfold result
  rw [EStateM.run_bind]
  cases m.run s <;> rfl

theorem result_get (f : Obstreambuf δ → Attempt δ Unit) (s : Obstreambuf δ) :
    result (get >>= f) s = result (f s) s := rfl

theorem result_ite {c : Prop} [Decidable c] (m m' : Attempt δ Unit) (s : Obstreambuf δ) :
    result (if c then m else m') s = if c then result m s else result m' s := by
  split_ifs <;> rfl

/-- Some of the bytes have been accepted, from the front. -/
def Partly (P : Obstreambuf δ → List UInt8 → Prop) (c src : List UInt8) (s : Obstreambuf δ) : Prop :=
  ∃ n ≤ src.length, P s (c ++ src.take n)

variable {Q : Obstreambuf δ → List UInt8 → Prop} {s : Obstreambuf δ} {c : List UInt8}

theorem Partly.none (src : List UInt8) (hs : Q s c) : Partly Q c src s := by
  refine ⟨0, Nat.zero_le _, ?_⟩
  rwa [List.take_zero, List.append_nil]

theorem Partly.all {src : List UInt8} (hs : Q s (c ++ src)) : Partly Q c src s := by
  refine ⟨src.length, le_rfl, ?_⟩
  rwa [List.take_length]

/-- Some of what was left over when a part of the bytes had been accepted. -/
theorem Partly.later {src : List UInt8} {n : Nat} (h : Partly Q (c ++ src.take n) (src.drop n) s) :
    Partly Q c src s := by
  obtain ⟨m, hm, hs⟩ := h
  rw [List.length_drop] at hm
  by_cases hn : n ≤ src.length
  · refine ⟨n + m, by omega, ?_⟩
    rwa [List.take_add, ← List.append_assoc]
  · refine .all ?_
    rwa [List.drop_eq_nil_of_le (by omega), List.take_nil, List.append_nil,
      List.take_of_length_le (by omega)] at hs

/-- A part of a write that fails before it has placed anything. -/
theorem Partly.before {m : Attempt δ Unit} {R : Obstreambuf δ → Prop} (src : List UInt8)
    (hm : Leaves (Q · c) (m.run s) R) : Leaves (Partly Q c src) (m.run s) R := by
  refine hm.imp ?_ fun _ => id
  intro t ht
  exact Partly.none src ht

end

variable {δ : Type} [Device δ]

def flush : Attempt δ Unit := do
  let s ← get
  if s.dirty then do
    Device.reallyFlush
    modify fun s => { s.setHighWatermark with lastTouched := s.setHighWatermark.ppos, dirty := false }
  else pure ()

def makeWritable : Attempt δ Unit := do
  let s ← get
  if s.writable then pure ()
  else do
    Device.reallyMakeWritable
    modify fun s => { s with writable := true }

def touch : Attempt δ Unit := do
  let s ← get
  if s.lastTouched ≠ s.ppos then Device.reallyTouch else pure ()

def overflow (requested : Nat) : Attempt δ Unit := do
  flush
  Device.reallyOverflow requested

def place (src : List UInt8) : Attempt δ Unit := do
  modify fun s => if s.dirty then s else { s with dirtyStart := s.pnext }
  let s ← get
  Device.store s.pnext src
  modify fun s => { s with pnext := s.pnext + src.length, dirty := true }

def prepare : Attempt δ Unit := do
  makeWritable
  let s ← get
  if s.dirty then pure () else touch

/-- The check for room in front of every block. -/
def makeRoom (requested : Nat) : Attempt δ Unit := do
  let s ← get
  if s.pend ≤ s.pnext then overflow requested else pure ()

def put (byte : UInt8) : Attempt δ Unit := do
  prepare
  makeRoom 1
  place [byte]

def putChunks : Nat → List UInt8 → Attempt δ Unit
  | _, [] => pure ()
  | 0, _ :: _ => throw .loops
  | rounds + 1, b :: src => do
    makeRoom (b :: src).length
    let s ← get
    let chunkSize := min (b :: src).length (s.pend - s.pnext)
    place ((b :: src).take chunkSize)
    putChunks rounds ((b :: src).drop chunkSize)

def putn (src : List UInt8) : Attempt δ Unit := do
  prepare
  let s ← get
  if src.length ≤ s.pend - s.pnext then place src
  else do
    overflow src.length
    let s ← get
    if src.length ≤ s.pend - s.pnext then place src else putChunks src.length src

def filln (byte : UInt8) (n : Nat) : Attempt δ Unit := putn (List.replicate n byte)

/-! ### Without the states of failed calls -/

theorem result_flush (s : Obstreambuf δ) : result flush s = s.flush := by
  rw [flush, result_get, result_ite, result_bind]
  rfl

theorem result_makeWritable (s : Obstreambuf δ) : result makeWritable s = s.makeWritable := by
  rw [makeWritable, result_get, result_ite, result_bind]
  rfl

theorem result_touch (s : Obstreambuf δ) : result touch s = s.touch := by
  rw [touch, result_get, result_ite]
  rfl

theorem result_overflow (n : Nat) (s : Obstreambuf δ) : result (overflow n) s = s.overflow n := by
  rw [overflow, result_bind, result_flush]
  rfl

theorem result_place (src : List UInt8) (s : Obstreambuf δ) : result (place src) s = s.place src := by
  rw [place, result_bind]
  show result (do let s ← get; Device.store s.pnext src; _) _ = _
  rw [result_get, result_bind]
  rfl

theorem result_prepare (s : Obstreambuf δ) : result prepare s = s.prepare := by
  have hrest : result (do let s ← get; if s.dirty then pure () else touch : Attempt δ Unit) =
      fun s => if s.dirty then pure s else s.touch := by
    funext s
    rw [result_get, result_ite, result_touch]
    rfl
  rw [prepare, result_bind, result_makeWritable, hrest]
  rfl

theorem result_makeRoom (n : Nat) (m : Attempt δ Unit) (s : Obstreambuf δ) :
    result (makeRoom n >>= fun _ => m) s =
      if s.pend ≤ s.pnext then s.overflow n >>= result m else pure s >>= result m := by
  rw [result_bind, makeRoom, result_get, result_ite, result_overflow]
  split_ifs <;> rfl

theorem result_put (byte : UInt8) (s : Obstreambuf δ) : result (put byte) s = s.put byte := by
  have hrest : result (do makeRoom 1; place [byte] : Attempt δ Unit) = fun s =>
      if s.pend ≤ s.pnext then s.overflow 1 >>= fun s => s.place [byte]
      else pure s >>= fun s => s.place [byte] := by
    funext s
    rw [result_makeRoom, funext (result_place [byte])]
  rw [put, result_bind, result_prepare, hrest]
  rfl

theorem result_putChunks (rounds : Nat) : ∀ (src : List UInt8) (s : Obstreambuf δ),
    result (putChunks rounds src) s = s.putChunks rounds src := by
  induction rounds with
  | zero =>
    intro src s
    cases src <;> rfl
  | succ rounds ih =>
    intro src s
    obtain _ | ⟨b, src⟩ := src
    · rfl
    · have hround : result (do
          let s ← get
          let chunkSize := min (b :: src).length (s.pend - s.pnext)
          place ((b :: src).take chunkSize)
          putChunks rounds ((b :: src).drop chunkSize) : Attempt δ Unit) = fun s =>
            s.place ((b :: src).take (min (b :: src).length (s.pend - s.pnext))) >>= fun s' =>
              s'.putChunks rounds ((b :: src).drop (min (b :: src).length (s.pend - s.pnext))) := by
        funext s
        rw [result_get, result_bind, result_place, funext (ih _)]
      rw [putChunks, result_makeRoom, hround]
      rfl

theorem result_putn (src : List UInt8) (s : Obstreambuf δ) : result (putn src) s = s.putn src := by
  have hafter : result (do
      let s ← get
      if src.length ≤ s.pend - s.pnext then place src else putChunks src.length src : Attempt δ Unit) =
        fun s => if src.length ≤ s.pend - s.pnext then s.place src
          else s.putChunks src.length src := by
    funext s
    rw [result_get, result_ite, result_place, result_putChunks]
  have hrest : result (do
      let s ← get
      if src.length ≤ s.pend - s.pnext then place src
      else do
        overflow src.length
        let s ← get
        if src.length ≤ s.pend - s.pnext then place src else putChunks src.length src : Attempt δ Unit) =
        fun s => if src.length ≤ s.pend - s.pnext then s.place src else s.overflow src.length >>= fun s =>
          if src.length ≤ s.pend - s.pnext then s.place src else s.putChunks src.length src := by
    funext s
    rw [result_get, result_ite, result_place, result_bind, result_overflow, hafter]
  rw [putn, result_bind, result_prepare, hrest]
  rfl

/-! ### What a write has accepted -/

/-- `Q s c` says that `s` has accepted the bytes `c`, and `P s c` that it is ready for more.  The parts
of a write keep that, at least `Q` when they fail, and only placing adds to it.  Something may be
placed only if `N`. -/
structure Accepts (N : Prop) (P Q : Obstreambuf δ → List UInt8 → Prop) : Prop where
  kept : ∀ {s c}, P s c → Q s c
  overflow : ∀ {s c} (n : Nat), P s c → Leaves (Q · c) ((overflow n).run s) (P · c)
  place : ∀ {s c} (src : List UInt8), P s c → (src ≠ [] → N) →
    Leaves (Q · c) ((place src).run s) (P · (c ++ src))

section

variable {N : Prop} {P Q : Obstreambuf δ → List UInt8 → Prop} {s : Obstreambuf δ} {c : List UInt8}

namespace Accepts

theorem makeRoom (h : Accepts N P Q) (hs : P s c) (n : Nat) :
    Leaves (Q · c) ((makeRoom n).run s) (P · c) := by
  show Leaves _ ((if s.pend ≤ s.pnext then Attempt.overflow n else pure () : Attempt δ Unit).run s) _
  split_ifs
  · exact h.overflow n hs
  · exact .ok hs

theorem put (h : Accepts N P Q) (hs : Leaves (Q · c) (prepare.run s) (P · c)) (byte : UInt8)
    (hN : N) : Leaves (Partly Q c [byte]) ((Attempt.put byte).run s) (P · (c ++ [byte])) := by
  refine (Partly.before [byte] hs).bind ?_
  intro _ s₁ hs₁
  refine (Partly.before [byte] (h.makeRoom hs₁ 1)).bind ?_
  intro _ s₂ hs₂
  exact Partly.before [byte] (h.place [byte] hs₂ fun _ => hN)

theorem putChunks (h : Accepts N P Q) (rounds : Nat) {src : List UInt8} (hN : src ≠ [] → N) :
    ∀ {s c}, P s c → Leaves (Partly Q c src) ((Attempt.putChunks rounds src).run s)
      (P · (c ++ src)) := by
  induction rounds generalizing src with
  | zero =>
    intro s c hs
    obtain _ | ⟨b, src⟩ := src
    · rw [List.append_nil]
      exact .ok hs
    · exact .error (Partly.none _ (h.kept hs))
  | succ rounds ih =>
    intro s c hs
    obtain _ | ⟨b, src⟩ := src
    · rw [List.append_nil]
      exact .ok hs
    · refine (Partly.before (b :: src) (h.makeRoom hs _)).bind ?_
      intro _ s₁ hs₁
      let n := min (b :: src).length (s₁.pend - s₁.pnext)
      have hsome : N := hN (List.cons_ne_nil b src)
      show Leaves _ ((Attempt.place ((b :: src).take n) >>= fun _ =>
        Attempt.putChunks rounds ((b :: src).drop n)).run s₁) _
      refine (Partly.before (b :: src) (h.place _ hs₁ fun _ => hsome)).bind ?_
      intro _ s₂ hs₂
      refine (ih (fun _ => hsome) hs₂).imp (fun _ => Partly.later) ?_
      intro s₃ hs₃
      rwa [List.append_assoc, List.take_append_drop] at hs₃

theorem putn (h : Accepts N P Q) (hs : Leaves (Q · c) (prepare.run s) (P · c)) {src : List UInt8}
    (hN : src ≠ [] → N) : Leaves (Partly Q c src) ((Attempt.putn src).run s) (P · (c ++ src)) := by
  refine (Partly.before src hs).bind ?_
  intro _ s₁ hs₁
  show Leaves _ ((if src.length ≤ s₁.pend - s₁.pnext then Attempt.place src
    else Attempt.overflow src.length >>= fun _ => do
      let s ← get
      if src.length ≤ s.pend - s.pnext then Attempt.place src
      else Attempt.putChunks src.length src : Attempt δ Unit).run s₁) _
  split_ifs
  · exact Partly.before src (h.place src hs₁ hN)
  · refine (Partly.before src (h.overflow _ hs₁)).bind ?_
    intro _ s₂ hs₂
    show Leaves _ ((if src.length ≤ s₂.pend - s₂.pnext then Attempt.place src
      else Attempt.putChunks src.length src : Attempt δ Unit).run s₂) _
    split_ifs
    · exact Partly.before src (h.place src hs₂ hN)
    · exact h.putChunks _ hN hs₂

/-- However the write ends, it has accepted a part of the bytes. -/
theorem putn_left (h : Accepts N P Q) (hs : Leaves (Q · c) (prepare.run s) (P · c))
    {src : List UInt8} (hN : src ≠ [] → N) : Partly Q c src (left ((Attempt.putn src).run s)) := by
  have hends := (h.putn hs hN).imp (fun _ => id) fun t ht => Partly.all (h.kept ht)
  exact hends.left

theorem put_left (h : Accepts N P Q) (hs : Leaves (Q · c) (prepare.run s) (P · c)) (byte : UInt8)
    (hN : N) : Partly Q c [byte] (left ((Attempt.put byte).run s)) := by
  have hends := (h.put hs byte hN).imp (fun _ => id) fun t ht => Partly.all (h.kept ht)
  exact hends.left

end Accepts

end

end Attempt

end Nodeoze.Bstream
