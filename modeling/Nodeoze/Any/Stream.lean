import Nodeoze.Any.Basic
import Nodeoze.Bstream.Primitives
import Nodeoze.Lib.Fallible

/-!
# Values on a stream

`any::put` writes a value in the binary format, and the constructor from an `ibstream` reads one: it
looks at the type code, and takes the value with the reader of its type.  There are two gaps.  The
codes of 32-bit integers are no integers to `typecode::is_int`, and the code of null is looked at
but not taken, so that whatever comes next is null again.

A value without such integers and without nulls is read back, whatever follows it.  From any other
value the reader ends with an error or stays at a code of null.
-/

namespace Nodeoze.Any

open Reader Bstream Endian Fallible

/-- `any::type_t` -/
inductive Kind
  | null
  | boolean
  | integer
  | floating
  | string
  | blob
  | array
  | object
  deriving DecidableEq, Repr

mutual

/-- `any::put` -/
def put (o : Order) : Any → Except Fault (List Chunk)
  | .null => pure [.byte Typecode.nil]
  | .boolean b => pure (putBool b)
  | .integer i => pure (putInt o true i.toInt)
  | .floating w => pure (putDouble o w.toNat)
  | .string bs => putString o bs
  | .blob bs => pure (writeBlob o bs)
  | .array xs => do
    let elems ← putAll o xs
    pure (writeArrayHeader o xs.length ++ elems)
  | .object ms => do
    let members ← putMembers o ms
    pure (writeMapHeader o ms.length ++ members)

def putAll (o : Order) : List Any → Except Fault (List Chunk)
  | [] => pure []
  | x :: xs => do
    let first ← put o x
    let rest ← putAll o xs
    pure (first ++ rest)

def putMembers (o : Order) : List (Key × Any) → Except Fault (List Chunk)
  | [] => pure []
  | (k, v) :: ms => do
    let key ← putString o k
    let value ← put o v
    let rest ← putMembers o ms
    pure (key ++ value ++ rest)

end

/-- The branch that the constructor takes; without one it runs into `assert( false )`. -/
def kindOf (code : UInt8) : Option Kind :=
  if Typecode.isInt code then some .integer
  else if Typecode.isFloating code then some .floating
  else if Typecode.isString code then some .string
  else if Typecode.isBool code then some .boolean
  else if Typecode.isBlob code then some .blob
  else if Typecode.isArray code then some .array
  else if Typecode.isMap code then some .object
  else if Typecode.isNil code then some .null
  else none

/-- Strings up to this size are copied, longer ones alias the buffer of the stream. -/
def maxShortStringSize : Nat := 15

/-- `emplace` of the map: a key that is there keeps its value. -/
def emplace (ms : List (Key × Any)) (k : Key) (v : Any) : List (Key × Any) :=
  if (ms.lookup k).isSome then ms else ms ++ [(k, v)]

section

variable (widen : Nat → Nat) (o : Order)

def readElem (again : Istream Unit Any) (xs : List Any) : Istream Unit (List Any) := do
  let x ← again
  pure (xs ++ [x])

def readMember (again : Istream Unit Any) (ms : List (Key × Any)) : Istream Unit (List (Key × Any)) := do
  let key ← getString o
  let value ← again
  pure (emplace ms key value)

def readText (stringSize : Nat) : Istream Unit (List UInt8) :=
  if stringSize ≤ maxShortStringSize then getString o else getStringAlias o

def readKind (again : Istream Unit Any) : Option Kind → Istream Unit Any
  | some .integer => do
    let i ← getInt o true .w64
    pure (.integer (Int64.ofInt i))
  | some .floating => do
    let w ← getDouble widen o
    pure (.floating (UInt64.ofNat w))
  | some .string => do
    let stringSize ← ahead (readStringHeader o)
    let bs ← readText o stringSize
    pure (.string bs)
  | some .boolean => do
    let b ← getBool
    pure (.boolean b)
  | some .blob => do
    let bs ← readBlob o
    pure (.blob bs)
  | some .array => do
    let n ← readArrayHeader o
    let xs ← loop (readElem again) n []
    pure (.array xs)
  | some .object => do
    let n ← readMapHeader o
    let ms ← loop (readMember o again) n []
    pure (.object ms)
  | some .null => pure .null
  | none => throw .undefined

def read : Nat → Istream Unit Any
  | 0 => throw .fuel
  | fuel + 1 => do
    let code ← peek eof
    readKind widen o (read fuel) (kindOf code)

/-- `any( is )`: every level of nesting takes a byte for its header, so the bytes that are left
bound the depth. -/
def ofStream : Istream Unit Any := fun junk st => read widen o (st.rest.length + 1) junk st

end

/-! ### Ways a reader can end -/

section Ways

variable {α β : Type} {p : Istream Unit α} {f : α → Istream Unit β} {bs cs : List UInt8}
  {a : α} {b : β} {g g' : Prop}

/-- The reader is at a code of null. -/
def AtNil (st : Input Unit) : Prop := ∃ t, st.rest = Typecode.nil :: t

/-- From a code of null on, the reader reports an error or stays there. -/
def Idle (p : Istream Unit α) : Prop :=
  ∀ junk st, AtNil st → (∃ e, e ≠ .fuel ∧ p junk st = .error e) ∨ ∃ a, p junk st = .ok (a, st)

/-- On the bytes `bs` the reader reports an error, or ends at a code of null before their end. -/
def Stops (p : Istream Unit α) (bs : List UInt8) : Prop :=
  ∀ junk pos r n, (∃ e, e ≠ .fuel ∧ p junk ⟨pos, bs ++ r, n, ()⟩ = .error e) ∨
    ∃ a st, p junk ⟨pos, bs ++ r, n, ()⟩ = .ok (a, st) ∧ AtNil st ∧ r.length < st.rest.length

/-- The reader takes the bytes `bs` as `a` if `g` holds, and stops if not. -/
structure Outcome (p : Istream Unit α) (bs : List UInt8) (g : Prop) (a : α) : Prop where
  good : g → Takes p () bs a ()
  bad : ¬g → Stops p bs

theorem Idle.bind (hp : Idle p) (hf : ∀ a, Idle (f a)) : Idle (p >>= f) := by
  intro junk st hst
  rcases hp junk st hst with ⟨e, hne, he⟩ | ⟨a, ha⟩
  · exact .inl ⟨e, hne, bind_error he⟩
  · rw [bind_ok ha]
    exact hf a junk st hst

theorem Idle.pure (a : α) : Idle (pure a : Istream Unit α) := fun _ _ _ => .inr ⟨a, rfl⟩

theorem Idle.loop {step : β → Istream Unit β} (h : ∀ b, Idle (step b)) (n : Nat) (b : β) :
    Idle (loop step n b) := by
  induction n generalizing b with
  | zero => exact .pure b
  | succ n ih => exact (h b).bind ih

theorem Stops.bind (hp : Stops p bs) (hf : ∀ a, Idle (f a)) : Stops (p >>= f) (bs ++ cs) := by
  intro junk pos r n
  rw [List.append_assoc]
  rcases hp junk pos (cs ++ r) n with ⟨e, hne, he⟩ | ⟨a, st, ha, hst, hlt⟩
  · exact .inl ⟨e, hne, bind_error he⟩
  · rw [bind_ok ha]
    rw [List.length_append] at hlt
    rcases hf a junk st hst with herr | ⟨b, hb⟩
    · exact .inl herr
    · exact .inr ⟨b, st, hb, hst, by omega⟩

theorem Stops.after (hp : Takes p () bs a ()) (hf : Stops (f a) cs) : Stops (p >>= f) (bs ++ cs) := by
  intro junk pos r n
  rw [List.append_assoc, bind_ok (hp junk pos (cs ++ r) n)]
  exact hf junk _ r n

theorem Stops.throw {e : Fault} (he : e ≠ .fuel) (bs : List UInt8) :
    Stops (throw e : Istream Unit α) bs :=
  fun _ _ _ _ => .inl ⟨e, he, rfl⟩

/-- A reader that stops does not get to the end. -/
theorem Outcome.comes_back_iff (h : Outcome p bs g a) (Same : α → Prop) (ha : Same a) :
    (∀ junk pos r n, ∃ v, p junk ⟨pos, bs ++ r, n, ()⟩ = .ok (v, ⟨pos + bs.length, r, n, ()⟩) ∧
      Same v) ↔ g := by
  constructor
  · intro hback
    by_contra hbad
    obtain ⟨v, hv, -⟩ := hback (fun _ _ => 0) 0 [] 0
    rcases h.bad hbad (fun _ _ => 0) 0 [] 0 with ⟨e, -, he⟩ | ⟨a, st, ha, -, hlt⟩
    · rw [hv] at he
      cases he
    · rw [hv] at ha
      obtain ⟨-, rfl⟩ := Prod.mk.inj (Except.ok.inj ha)
      exact absurd hlt (lt_irrefl _)
  · exact fun hg junk pos r n => ⟨a, h.good hg junk pos r n, ha⟩

theorem Outcome.of_takes (h : Takes p () bs a ()) : Outcome p bs True a :=
  ⟨fun _ => h, fun hn => absurd trivial hn⟩

theorem Outcome.bind (hp : Outcome p bs g a) (hf : Outcome (f a) cs g' b) (hidle : ∀ a, Idle (f a)) :
    Outcome (p >>= f) (bs ++ cs) (g ∧ g') b where
  good := fun hg => (hp.good hg.1).bind (hf.good hg.2)
  bad := by
    intro hn
    by_cases hg : g
    · exact .after (hp.good hg) (hf.bad fun hg' => hn ⟨hg, hg'⟩)
    · exact (hp.bad hg).bind hidle

theorem Outcome.after (hp : Takes p () bs a ()) (hf : Outcome (f a) cs g b) :
    Outcome (p >>= f) (bs ++ cs) g b :=
  ⟨fun hg => hp.bind (hf.good hg), fun hn => .after hp (hf.bad hn)⟩

theorem Outcome.then_pure (hp : Outcome p bs g a) (k : α → β) :
    Outcome (p >>= fun x => Pure.pure (k x)) bs g (k a) := by
  have hpure : Outcome (Pure.pure (k a) : Istream Unit β) [] True (k a) := .of_takes (.pure _ _)
  have h := hp.bind (f := fun x => Pure.pure (k x)) hpure fun x => .pure (k x)
  rwa [List.append_nil, and_true] at h

/-- A reader that looks at the first byte. -/
theorem Outcome.peek {f : UInt8 → Istream Unit β} {c : UInt8} (h : Outcome (f c) (c :: bs) g b) :
    Outcome (peek eof >>= f) (c :: bs) g b where
  good := by
    intro hg junk pos r n
    rw [← h.good hg junk pos r n]
    exact bind_ok rfl
  bad := by
    intro hn junk pos r n
    rw [bind_ok (show Reader.peek eof junk ⟨pos, c :: bs ++ r, n, ()⟩ =
      .ok (c, ⟨pos, c :: bs ++ r, n, ()⟩) from rfl)]
    exact h.bad hn junk pos r n

end Ways

section

variable (widen : Nat → Nat) (o : Order)

theorem idle_getString : Idle (getString o) := by
  rintro junk ⟨pos, rest, n, u⟩ ⟨t, ht⟩
  simp only at ht
  subst ht
  exact .inl ⟨.system .typeError, by decide, rfl⟩

theorem idle_read (fuel : Nat) : Idle (read widen o (fuel + 1)) := by
  rintro junk ⟨pos, rest, n, u⟩ ⟨t, ht⟩
  simp only at ht
  subst ht
  exact .inr ⟨.null, rfl⟩

theorem idle_readElem (fuel : Nat) (xs : List Any) : Idle (readElem (read widen o (fuel + 1)) xs) :=
  (idle_read widen o fuel).bind fun _ => .pure _

theorem idle_readMember (again : Istream Unit Any) (hagain : Idle again) (ms : List (Key × Any)) :
    Idle (readMember o again ms) :=
  (idle_getString o).bind fun _ => hagain.bind fun _ => .pure _

end

/-! ### Values that are read back -/

/-- The integers whose code is that of a 32-bit number. -/
def Wide (i : Int) : Prop := (2 ^ 16 ≤ i ∧ i < 2 ^ 32) ∨ (-2 ^ 31 ≤ i ∧ i < -2 ^ 15)

instance (i : Int) : Decidable (Wide i) := inferInstanceAs (Decidable (_ ∨ _))

mutual

/-- There is no null in the value, and no integer that needs 32 bits and no more. -/
def Readable : Any → Prop
  | .null => False
  | .integer i => ¬Wide i.toInt
  | .array xs => ReadableAll xs
  | .object ms => ReadableMembers ms
  | _ => True

def ReadableAll : List Any → Prop
  | [] => True
  | x :: xs => Readable x ∧ ReadableAll xs

def ReadableMembers : List (Key × Any) → Prop
  | [] => True
  | (_, v) :: ms => Readable v ∧ ReadableMembers ms

end

section Heads

variable (o : Order)

theorem head_array (n : Nat) :
    StartsWith (fun c => kindOf c = some .array) (writeArrayHeader o n) := by
  have hfix : ∀ k : Fin 16, kindOf (0x90 ||| UInt8.ofNat k) = some .array := by decide
  simp only [writeArrayHeader]
  split_ifs with h1 h2
  · exact ⟨_, _, rfl, hfix ⟨n % 2 ^ 32, by omega⟩⟩
  · exact ⟨_, _, rfl, by decide⟩
  · exact ⟨_, _, rfl, by decide⟩

theorem head_object (n : Nat) :
    StartsWith (fun c => kindOf c = some .object) (writeMapHeader o n) := by
  have hfix : ∀ k : Fin 16, kindOf (0x80 ||| UInt8.ofNat k) = some .object := by decide
  simp only [writeMapHeader]
  split_ifs with h1 h2
  · exact ⟨_, _, rfl, hfix ⟨n % 2 ^ 32, by omega⟩⟩
  · exact ⟨_, _, rfl, by decide⟩
  · exact ⟨_, _, rfl, by decide⟩

theorem head_blob (bs : List UInt8) : StartsWith (fun c => kindOf c = some .blob) (writeBlob o bs) := by
  simp only [writeBlob, writeBlobHeader]
  split_ifs
  · exact ⟨_, _, rfl, by decide⟩
  · exact ⟨_, _, rfl, by decide⟩
  · exact ⟨_, _, rfl, by decide⟩

theorem head_string {bs : List UInt8} {ts : List Chunk} (h : putString o bs = .ok ts) :
    StartsWith (fun c => kindOf c = some .string) ts := by
  have hfix : ∀ k : Fin 32, kindOf (0xa0 ||| UInt8.ofNat k) = some .string := by decide
  simp only [putString] at h
  split_ifs at h with h1 h2 h3 h4
  · obtain rfl := Except.ok.inj h
    exact ⟨_, _, rfl, hfix ⟨bs.length, by omega⟩⟩
  · obtain rfl := Except.ok.inj h
    exact ⟨_, _, rfl, by decide⟩
  · obtain rfl := Except.ok.inj h
    exact ⟨_, _, rfl, by decide⟩
  · obtain rfl := Except.ok.inj h
    exact ⟨_, _, rfl, by decide⟩

theorem head_integer (i : Int) (hnarrow : ¬Wide i) :
    StartsWith (fun c => kindOf c = some .integer) (putInt o true i) := by
  have hpos : ∀ k : Fin 128, kindOf (UInt8.ofNat k) = some .integer := by decide
  have hneg : ∀ k : Fin 32, kindOf (UInt8.ofNat (toUnsigned 1 (-(k : Int) - 1))) = some .integer := by
    decide
  unfold Wide at hnarrow
  simp only [putInt, if_true, putSigned, putUnsigned]
  split_ifs with h1 h2 h3 h4 h5 h6 h7 h8 h9
  · exact ⟨_, _, rfl, hpos ⟨i.toNat, by omega⟩⟩
  · exact ⟨_, _, rfl, by decide⟩
  · exact ⟨_, _, rfl, by decide⟩
  · omega
  · exact ⟨_, _, rfl, by decide⟩
  · have hfix := hneg ⟨(-i - 1).toNat, by omega⟩
    have hback : -((-i - 1).toNat : Int) - 1 = i := by omega
    simp only [hback] at hfix
    exact ⟨_, _, rfl, hfix⟩
  · exact ⟨_, _, rfl, by decide⟩
  · exact ⟨_, _, rfl, by decide⟩
  · omega
  · exact ⟨_, _, rfl, by decide⟩

theorem head_wide {i : Int} (hwide : Wide i) : StartsWith (fun c => kindOf c = none) (putInt o true i) := by
  unfold Wide at hwide
  simp only [putInt, if_true, putSigned, putUnsigned]
  split_ifs
  all_goals first
    | omega
    | exact ⟨_, _, rfl, by decide⟩

end Heads

section

variable (widen : Nat → Nat) (o : Order)

theorem outcome_of_head {kd : Option Kind} {ts : List Chunk} {g : Prop} {x : Any} {fuel : Nat}
    (hts : StartsWith (fun c => kindOf c = kd) ts)
    (h : Outcome (readKind widen o (read widen o fuel) kd) (bytes ts) g x) :
    Outcome (read widen o (fuel + 1)) (bytes ts) g x := by
  obtain ⟨c, us, rfl, hc⟩ := hts
  show Outcome (peek eof >>= fun c => readKind widen o (read widen o fuel) (kindOf c)) (c :: bytes us) g x
  apply Outcome.peek
  rw [hc]
  exact h

theorem outcome_integer (fuel : Nat) (i : Int64) :
    Outcome (read widen o (fuel + 1)) (bytes (putInt o true i.toInt)) (¬Wide i.toInt) (.integer i) := by
  by_cases hwide : Wide i.toInt
  · refine ⟨fun hn => absurd hwide hn, fun _ => ?_⟩
    refine (outcome_of_head widen o (head_wide o hwide) (g := False) (x := .null) ?_).bad id
    exact ⟨False.elim, fun _ => .throw (by decide) _⟩
  · have hrange : InRange true .w64 i.toInt := by
      have h1 := i.toInt_lt
      have h2 := i.le_toInt
      simp only [InRange, Width.size, if_true]
      omega
    have htakes := (reads_getInt o hrange ()).takes
    have hread : Outcome (readKind widen o (read widen o fuel) (some .integer))
        (bytes (putInt o true i.toInt)) True (.integer (Int64.ofInt i.toInt)) :=
      (Outcome.of_takes htakes).then_pure fun i => Any.integer (Int64.ofInt i)
    rw [Int64.ofInt_toInt] at hread
    have hhead := outcome_of_head widen o (head_integer o i.toInt hwide) hread
    exact ⟨fun _ => hhead.good trivial, fun hn => absurd hwide hn⟩

theorem outcome_string (fuel : Nat) {bs : List UInt8} (hn : bs.length < 2 ^ 32) :
    ∃ ts, putString o bs = .ok ts ∧ Outcome (read widen o (fuel + 1)) (bytes ts) True (.string bs) := by
  obtain ⟨ts, hts, hread⟩ := reads_getString o hn ()
  obtain ⟨us, hus, hheader⟩ := reads_readStringHeader o hn ()
  obtain rfl := Except.ok.inj (hts.symm.trans hus)
  refine ⟨_, hts, outcome_of_head widen o (head_string o hts) (.of_takes ?_)⟩
  intro junk pos r n
  have hlook : ahead (readStringHeader o) junk ⟨pos, bytes (us ++ [.raw bs]) ++ r, n, ()⟩ =
      .ok (bs.length, ⟨pos, bytes (us ++ [.raw bs]) ++ r, n, ()⟩) := by
    rw [bytes_append, List.append_assoc]
    exact hheader.takes.ahead junk pos _ n
  have hboth : readText o bs.length = getString o := by
    unfold readText
    split_ifs <;> rfl
  show (ahead (readStringHeader o) >>= fun stringSize => readText o stringSize >>= fun bs =>
      pure (Any.string bs)) junk _ = _
  rw [bind_ok hlook, hboth, bind_ok (hread.full junk pos r n)]
  rfl

/-- The elements of an array, one after the other. -/
theorem outcome_elems {fuel : Nat} {xs : List Any} (acc : List Any)
    (h : ∀ x ∈ xs, ∃ ts, put o x = .ok ts ∧
      Outcome (read widen o (fuel + 1)) (bytes ts) x.Readable x) :
    ∃ ts, putAll o xs = .ok ts ∧
      Outcome (loop (readElem (read widen o (fuel + 1))) xs.length acc) (bytes ts) (ReadableAll xs)
        (acc ++ xs) := by
  induction xs generalizing acc with
  | nil =>
    refine ⟨[], rfl, ?_⟩
    rw [List.append_nil]
    exact .of_takes (.pure acc ())
  | cons x xs ih =>
    obtain ⟨ts, hts, hx⟩ := h x List.mem_cons_self
    obtain ⟨us, hus, hxs⟩ := ih (acc ++ [x]) fun y hy => h y (List.mem_cons_of_mem x hy)
    refine ⟨ts ++ us, ?_, ?_⟩
    · rw [putAll, hts, hus]
      rfl
    · rw [bytes_append, List.append_cons]
      exact (hx.then_pure fun x => acc ++ [x]).bind hxs
        fun ys => .loop (idle_readElem widen o fuel) xs.length ys

theorem emplace_of_not_mem {ms : List (Key × Any)} {k : Key} (hk : k ∉ ms.map Prod.fst) (v : Any) :
    emplace ms k v = ms ++ [(k, v)] := by
  rw [emplace, lookup_eq_none_iff_keys.mpr hk]
  rfl

/-- The members of an object. -/
theorem outcome_members {fuel : Nat} {ms : List (Key × Any)} (acc : List (Key × Any))
    (hnodup : ((acc ++ ms).map Prod.fst).Nodup)
    (h : ∀ m ∈ ms, m.1.length < 2 ^ 32 ∧ ∃ ts, put o m.2 = .ok ts ∧
      Outcome (read widen o (fuel + 1)) (bytes ts) m.2.Readable m.2) :
    ∃ ts, putMembers o ms = .ok ts ∧
      Outcome (loop (readMember o (read widen o (fuel + 1))) ms.length acc) (bytes ts)
        (ReadableMembers ms) (acc ++ ms) := by
  induction ms generalizing acc with
  | nil =>
    refine ⟨[], rfl, ?_⟩
    rw [List.append_nil]
    exact .of_takes (.pure acc ())
  | cons m ms ih =>
    obtain ⟨k, v⟩ := m
    obtain ⟨hlen, ts, hts, hv⟩ := h (k, v) List.mem_cons_self
    obtain ⟨ks, hks, hkey⟩ := reads_getString o hlen ()
    rw [List.append_cons] at hnodup
    obtain ⟨us, hus, hms⟩ :=
      ih (acc ++ [(k, v)]) hnodup fun y hy => h y (List.mem_cons_of_mem _ hy)
    have hnew : k ∉ acc.map Prod.fst := by
      rw [List.append_assoc, List.map_append, List.nodup_append] at hnodup
      intro hk
      exact hnodup.2.2 k hk k List.mem_cons_self rfl
    have hmember : Outcome (readMember o (read widen o (fuel + 1)) acc) (bytes ks ++ bytes ts)
        (True ∧ v.Readable) (acc ++ [(k, v)]) := by
      have hvalue := hv.then_pure fun v => emplace acc k v
      rw [emplace_of_not_mem hnew] at hvalue
      exact (Outcome.of_takes hkey.takes).bind hvalue
        fun _ => (idle_read widen o fuel).bind fun _ => .pure _
    refine ⟨ks ++ ts ++ us, ?_, ?_⟩
    · rw [putMembers, hks, hts, hus]
      rfl
    · rw [bytes_append, bytes_append, List.append_cons]
      have hall := hmember.bind hms
        fun ys => .loop (idle_readMember o _ (idle_read widen o fuel)) ms.length ys
      rwa [true_and] at hall

theorem depth_le_all {xs : List Any} {x : Any} (hx : x ∈ xs) : x.depth ≤ depthAll xs := by
  induction xs with
  | nil => cases hx
  | cons y ys ih =>
    rw [depthAll]
    rcases List.mem_cons.mp hx with rfl | hx
    · exact le_max_left _ _
    · exact (ih hx).trans (le_max_right _ _)

theorem depth_le_members {ms : List (Key × Any)} {m : Key × Any} (hm : m ∈ ms) :
    m.2.depth ≤ depthMembers ms := by
  induction ms with
  | nil => cases hm
  | cons n ns ih =>
    obtain ⟨k, v⟩ := n
    rw [depthMembers]
    rcases List.mem_cons.mp hm with rfl | hm
    · exact le_max_left _ _
    · exact (ih hm).trans (le_max_right _ _)

theorem depth_pos (x : Any) : 0 < x.depth := by
  cases x <;> simp [depth]

/-- What the reader makes of a value, with enough fuel for its depth. -/
theorem outcome (x : Any) : ∀ {fuel : Nat}, x.WF → x.depth ≤ fuel + 1 →
    ∃ ts, put o x = .ok ts ∧ Outcome (read widen o (fuel + 1)) (bytes ts) x.Readable x := by
  induction x using induct with
  | null =>
    intro fuel _ _
    refine ⟨[.byte Typecode.nil], rfl, fun hr => hr.elim, fun _ => ?_⟩
    intro junk pos r n
    exact .inr ⟨.null, ⟨pos, Typecode.nil :: r, n, ()⟩, rfl, ⟨r, rfl⟩, Nat.lt_succ_self _⟩
  | boolean b =>
    intro fuel _ _
    have hhead : StartsWith (fun c => kindOf c = some .boolean) (putBool b) := by
      cases b <;> exact ⟨_, _, rfl, by decide⟩
    refine ⟨_, rfl, outcome_of_head widen o hhead ?_⟩
    exact (Outcome.of_takes (reads_getBool b ()).takes).then_pure Any.boolean
  | integer i =>
    intro fuel _ _
    exact ⟨_, rfl, outcome_integer widen o fuel i⟩
  | floating w =>
    intro fuel _ _
    have hhead : StartsWith (fun c => kindOf c = some .floating) (putDouble o w.toNat) :=
      ⟨_, _, rfl, by decide⟩
    have hread := (Outcome.of_takes (reads_getDouble widen o w.toNat_lt ()).takes).then_pure
      fun w => Any.floating (UInt64.ofNat w)
    rw [UInt64.ofNat_toNat] at hread
    exact ⟨_, rfl, outcome_of_head widen o hhead hread⟩
  | string bs =>
    intro fuel hwf _
    exact outcome_string widen o fuel hwf
  | blob bs =>
    intro fuel hwf _
    refine ⟨_, rfl, outcome_of_head widen o (head_blob o bs) ?_⟩
    exact (Outcome.of_takes (reads_readBlob o hwf ()).takes).then_pure Any.blob
  | array xs ih =>
    intro fuel hwf hfuel
    rw [depth] at hfuel
    have helems : ∃ ts, putAll o xs = .ok ts ∧
        Outcome (loop (readElem (read widen o fuel)) xs.length []) (bytes ts) (ReadableAll xs) xs := by
      rcases xs with _ | ⟨x, xs⟩
      · exact ⟨[], rfl, .of_takes (.pure [] ())⟩
      · have hle : x.depth ≤ depthAll (x :: xs) := depth_le_all List.mem_cons_self
        obtain ⟨k, rfl⟩ : ∃ k, fuel = k + 1 := Nat.exists_eq_add_one.mpr (by
          have := depth_pos x
          omega)
        exact outcome_elems widen o [] fun y hy =>
          ih y hy ((wfAll_iff _).mp hwf.2 y hy) ((depth_le_all hy).trans (by omega))
    obtain ⟨ts, hts, hloop⟩ := helems
    refine ⟨writeArrayHeader o xs.length ++ ts, by rw [put, hts]; rfl, ?_⟩
    refine outcome_of_head widen o ((head_array o xs.length).append ts) ?_
    rw [bytes_append]
    exact .after (reads_readArrayHeader o hwf.1 ()).takes (hloop.then_pure Any.array)
  | object ms ih =>
    intro fuel hwf hfuel
    rw [depth] at hfuel
    obtain ⟨hlen, hnodup, hms⟩ := hwf
    have hmembers : ∃ ts, putMembers o ms = .ok ts ∧
        Outcome (loop (readMember o (read widen o fuel)) ms.length []) (bytes ts)
          (ReadableMembers ms) ms := by
      rcases ms with _ | ⟨m, ms⟩
      · exact ⟨[], rfl, .of_takes (.pure [] ())⟩
      · have hle : m.2.depth ≤ depthMembers (m :: ms) := depth_le_members List.mem_cons_self
        obtain ⟨k, rfl⟩ : ∃ k, fuel = k + 1 := Nat.exists_eq_add_one.mpr (by
          have := depth_pos m.2
          omega)
        refine outcome_members widen o [] hnodup fun y hy => ?_
        obtain ⟨hkey, hval⟩ := (wfMembers_iff _).mp hms y hy
        exact ⟨hkey, ih y hy hval ((depth_le_members hy).trans (by omega))⟩
    obtain ⟨ts, hts, hloop⟩ := hmembers
    refine ⟨writeMapHeader o ms.length ++ ts, by rw [put, hts]; rfl, ?_⟩
    refine outcome_of_head widen o ((head_object o ms.length).append ts) ?_
    rw [bytes_append]
    exact .after (reads_readMapHeader o hlen ()).takes (hloop.then_pure Any.object)

theorem length_pos_of_head {P : UInt8 → Prop} {ts : List Chunk} (h : StartsWith P ts) :
    1 ≤ (bytes ts).length := by
  obtain ⟨c, us, rfl, -⟩ := h
  rw [bytes_cons, List.length_append]
  exact Nat.le_add_right _ _

variable {o}

theorem depthAll_le_length {xs : List Any} {ts : List Chunk} (hts : putAll o xs = .ok ts)
    (h : ∀ x ∈ xs, ∀ {us}, put o x = .ok us → x.depth ≤ (bytes us).length) :
    depthAll xs ≤ (bytes ts).length := by
  induction xs generalizing ts with
  | nil => exact Nat.zero_le _
  | cons x xs ih =>
    obtain ⟨us, hx, hts⟩ := bind_eq_ok.mp hts
    obtain ⟨vs, hxs, hts⟩ := bind_eq_ok.mp hts
    obtain rfl := Except.ok.inj hts
    have h1 := h x List.mem_cons_self hx
    have h2 := ih hxs fun y hy => h y (List.mem_cons_of_mem x hy)
    rw [depthAll, bytes_append, List.length_append]
    omega

theorem depthMembers_le_length {ms : List (Key × Any)} {ts : List Chunk}
    (hts : putMembers o ms = .ok ts)
    (h : ∀ m ∈ ms, ∀ {us}, put o m.2 = .ok us → m.2.depth ≤ (bytes us).length) :
    depthMembers ms ≤ (bytes ts).length := by
  induction ms generalizing ts with
  | nil => exact Nat.zero_le _
  | cons m ms ih =>
    obtain ⟨k, v⟩ := m
    obtain ⟨ks, hk, hts⟩ := bind_eq_ok.mp hts
    obtain ⟨us, hv, hts⟩ := bind_eq_ok.mp hts
    obtain ⟨vs, hms, hts⟩ := bind_eq_ok.mp hts
    obtain rfl := Except.ok.inj hts
    have h1 : v.depth ≤ (bytes us).length := h (k, v) List.mem_cons_self hv
    have h2 := ih hms fun y hy => h y (List.mem_cons_of_mem _ hy)
    rw [depthMembers, bytes_append, bytes_append, List.length_append, List.length_append]
    omega

theorem depth_le_length (x : Any) : ∀ {ts : List Chunk}, put o x = .ok ts →
    x.depth ≤ (bytes ts).length := by
  induction x using induct with
  | null =>
    intro ts h
    obtain rfl := Except.ok.inj h
    exact le_rfl
  | boolean b =>
    intro ts h
    obtain rfl := Except.ok.inj h
    exact le_rfl
  | integer i =>
    intro ts h
    obtain rfl := Except.ok.inj h
    by_cases hwide : Wide i.toInt
    · exact length_pos_of_head (head_wide o hwide)
    · exact length_pos_of_head (head_integer o i.toInt hwide)
  | floating w =>
    intro ts h
    obtain rfl := Except.ok.inj h
    exact Nat.le_add_left _ _
  | string bs =>
    intro ts h
    exact length_pos_of_head (head_string o h)
  | blob bs =>
    intro ts h
    obtain rfl := Except.ok.inj h
    exact length_pos_of_head (head_blob o bs)
  | array xs ih =>
    intro ts h
    obtain ⟨us, hus, h⟩ := bind_eq_ok.mp h
    obtain rfl := Except.ok.inj h
    have hall := depthAll_le_length hus ih
    have hhead := length_pos_of_head (head_array o xs.length)
    rw [depth, bytes_append, List.length_append]
    omega
  | object ms ih =>
    intro ts h
    obtain ⟨us, hus, h⟩ := bind_eq_ok.mp h
    obtain rfl := Except.ok.inj h
    have hall := depthMembers_le_length hus ih
    have hhead := length_pos_of_head (head_object o ms.length)
    rw [depth, bytes_append, List.length_append]
    omega

end

/-- Whatever follows the bytes, the reader makes a value of them that equals `x`, and takes them
all. -/
def ReadsBack (widen : Nat → Nat) (o : Order) (x : Any) (bs : List UInt8) : Prop :=
  ∀ junk pos r n, ∃ v, ofStream widen o junk ⟨pos, bs ++ r, n, ()⟩ =
    .ok (v, ⟨pos + bs.length, r, n, ()⟩) ∧ v.equals x = true

/-- What the constructor from a stream makes of a value. -/
theorem outcome_ofStream (widen : Nat → Nat) (o : Order) (x : Any) (hx : x.WF) :
    ∃ ts, x.put o = .ok ts ∧ Outcome (ofStream widen o) (bytes ts) x.Readable x := by
  obtain ⟨ts, hts, -⟩ := outcome widen o x hx (Nat.le_succ x.depth)
  have hlen := depth_le_length x hts
  have hout : ∀ r : List UInt8, Outcome (read widen o ((bytes ts ++ r).length + 1)) (bytes ts)
      x.Readable x := by
    intro r
    have hfuel : x.depth ≤ (bytes ts ++ r).length + 1 := by
      rw [List.length_append]
      omega
    obtain ⟨us, hus, h⟩ := outcome widen o x hx hfuel
    obtain rfl := Except.ok.inj (hts.symm.trans hus)
    exact h
  exact ⟨ts, hts, fun hg junk pos r n => (hout r).good hg junk pos r n,
    fun hn junk pos r n => (hout r).bad hn junk pos r n⟩

/-- Exactly the values without nulls and without integers of 32 bits are read back. -/
theorem any_readsBack_iff (widen : Nat → Nat) (o : Order) (x : Any) (hx : x.WF) :
    ∃ ts, x.put o = .ok ts ∧ (ReadsBack widen o x (bytes ts) ↔ x.Readable) := by
  obtain ⟨ts, hts, hout⟩ := outcome_ofStream widen o x hx
  exact ⟨ts, hts, hout.comes_back_iff (fun v => v.equals x = true) (equals_refl x hx)⟩

/-- An object with one of everything that is read back. -/
def sample : Any :=
  .object [([0x6b], .array [.integer (-5), .integer 4294967296, .boolean true, .string [1, 2]]),
    ([], .blob [0xc0]), ([0x7e], .floating 0x3ff0000000000000)]

theorem sample_readsBack : ∃ ts, sample.put .big = .ok ts ∧ ReadsBack id .big sample (bytes ts) := by
  have hwf : sample.WF := by
    simp [sample, WF, WFAll, WFMembers]
  obtain ⟨ts, hts, hiff⟩ := any_readsBack_iff id .big sample hwf
  refine ⟨ts, hts, hiff.mpr ?_⟩
  have h1 : ¬Wide (-5) := by decide
  have h2 : ¬Wide 4294967296 := by decide
  exact ⟨⟨h1, h2, trivial, trivial, trivial⟩, trivial, trivial, trivial⟩

/-- The null stays on the stream, and is the next element too. -/
theorem nullFirst_stays : ∃ ts, put .big (.array [.null, .boolean true]) = .ok ts ∧
    ofStream id .big (fun _ _ => 0) ⟨0, bytes ts, 0, ()⟩ =
      .ok (.array [.null, .null], ⟨1, [0xc0, 0xc3], 0, ()⟩) ∧
    ofStream id .big (fun _ _ => 0) ⟨0, bytes (putInt .big true 65536), 0, ()⟩ = .error .undefined ∧
    ¬ReadsBack id .big (.array [.null, .boolean true]) (bytes ts) := by
  have hread : ofStream id .big (fun _ _ => 0) ⟨0, [0x92, 0xc0, 0xc3], 0, ()⟩ =
      .ok (.array [.null, .null], ⟨1, [0xc0, 0xc3], 0, ()⟩) := rfl
  refine ⟨_, rfl, hread, rfl, ?_⟩
  intro hback
  obtain ⟨v, hv, -⟩ := hback (fun _ _ => 0) 0 [] 0
  have hv' : ofStream id .big (fun _ _ => 0) ⟨0, [0x92, 0xc0, 0xc3], 0, ()⟩ =
      .ok (v, ⟨3, [], 0, ()⟩) := hv
  rw [hread] at hv'
  cases hv'

end Nodeoze.Any
