import Nodeoze.Bstream.Headers
import Nodeoze.Bstream.Malformed

/-!
# The two forms of an operation

Most operations of an `ibstream` exist twice: one throws, the other takes a `std::error_code&`.  The
second form is a body of its own.  Some of these catch what the first form throws, some repeat its
statements over primitives that report, and some call the throwing primitive.  `agrees_iff` says for
every operation on which streams, and with what in the error code before the call, they agree.
-/

namespace Nodeoze.Bstream

open Reader Endian

variable {σ α : Type}

/-- How a call with an error code ends: it returns and leaves the code with this content, it reports
an error of its own (what it returns then, and where the stream is, is left open), or it throws. -/
inductive Outcome (σ α : Type)
  | returned (a : α) (code : Option Errc) (st : Input σ)
  | reported (code : Errc)
  | threw (e : Fault)

/-- Operations that take an error code, from its content before the call. -/
def Coded (σ α : Type) : Type :=
  Option Errc → (Nat → Nat → UInt8) → Input σ → Outcome σ α

namespace Coded

/-- `clear_error`, then the throwing form in a `try` block that catches `std::system_error`. -/
def attempt (p : Istream σ α) : Coded σ α := fun _ junk st =>
  match p junk st with
  | .ok (a, st') => .returned a none st'
  | .error (.system c) => .reported c
  | .error e => .threw e

/-- `clear_error`, then a throwing operation, whose result is checked. -/
def check (p : Istream σ α) (ok : α → Bool) : Coded σ Unit := fun _ junk st =>
  match p junk st with
  | .ok (a, st') => if ok a then .returned () none st' else .reported .typeError
  | .error e => .threw e

/-- Go on unless there is an error in the code. -/
def andThen {β : Type} (p : Coded σ α) (f : α → Coded σ β) (failed : β) : Coded σ β :=
  fun code junk st =>
  match p code junk st with
  | .returned a none st' => f a none junk st'
  | .returned _ (some c) st' => .returned failed (some c) st'
  | .reported c => .reported c
  | .threw e => .threw e

end Coded

/-- A throwing operation, then a check of its result. -/
def checked (p : Istream σ α) (ok : α → Bool) : Istream σ Unit := do
  let a ← p
  if ok a then pure () else throw (.system .typeError)

/-- `ibstreambuf::getn`: as many bytes as there are. -/
def getUpTo (n : Nat) : Istream σ (List UInt8) := fun _ st =>
  .ok (st.rest.take n, { st with pos := st.pos + min n st.rest.length, rest := st.rest.drop n })

/-! ### The operations -/

/-- `inumstream::getn( nbytes, throw_on_incomplete )` -/
def getnThrowing (n : Nat) (strict : Bool) : Istream σ (List UInt8) := do
  let buf ← getUpTo n
  if strict ∧ buf.length < n then throw eof else pure buf

/-- `inumstream::getn( nbytes, err, err_on_incomplete )` -/
def getnCoded (n : Nat) (strict : Bool) : Coded σ (List UInt8) := fun _ junk st =>
  match getUpTo n junk st with
  | .ok (buf, st') =>
    if strict ∧ buf.length < n then .reported .readPastEndOfStream else .returned buf none st'
  | .error e => .threw e

/-- `ibstreambuf::get( err )`: the code is not cleared where a byte is there. -/
def getCoded : Coded σ UInt8 := fun code _ st =>
  match st.rest with
  | [] => .reported .readPastEndOfStream
  | b :: r => .returned b code { st with pos := st.pos + 1, rest := r }

/-- `ibstreambuf::peek( err )` -/
def peekCoded : Coded σ UInt8 := fun code _ st =>
  match st.rest with
  | [] => .reported .readPastEndOfStream
  | b :: _ => .returned b code st

/-- `inumstream::get_num( err )`: the local starts as zero, the short count of `ibstreambuf::getn` is
dropped, and with an error in the code the bytes keep the order of the machine. -/
def getNumCoded (native o : Order) (w : Nat) : Coded σ Nat := fun code junk st =>
  if w = 1 then
    match getCoded code junk st with
    | .returned b code st' => .returned b.toNat code st'
    | .reported c => .reported c
    | .threw e => .threw e
  else if st.rest.length < w then
    -- `underflow` clears the code
    .returned (o.value (st.rest ++ List.replicate (w - st.rest.length) 0)) none
      { st with pos := st.pos + st.rest.length, rest := [], shorts := st.shorts + 1 }
  else
    let order := if code.isSome then native else o
    .returned (order.value (st.rest.take w)) code
      { st with pos := st.pos + w, rest := st.rest.drop w }

def isNilCode (tcode : UInt8) : Bool := tcode == Typecode.nil

/-- `ibstream::read_nil` -/
def readNil : Istream σ Unit := checked (get eof) isNilCode

def readNilCoded : Coded σ Unit := .check (get eof) isNilCode

/-- `ibstream::check_map_key` -/
def checkMapKey (o : Order) (key : List UInt8) : Istream σ Unit := checked (getString o) (· == key)

def checkMapKeyCoded (o : Order) (key : List UInt8) : Coded σ Unit := .check (getString o) (· == key)

def checkArrayHeaderCoded (o : Order) (expected : Nat) : Coded σ Unit :=
  .check (readArrayHeader o) (· == expected)

/-- `ibstream::check_map_header` -/
def checkMapHeader (o : Order) (expected : Nat) : Istream σ Unit :=
  checked (readMapHeader o) (· == expected)

def checkMapHeaderCoded (o : Order) (expected : Nat) : Coded σ Unit :=
  .check (readMapHeader o) (· == expected)

/-- `ibstream::read_blob( ec )` -/
def readBlobCoded (o : Order) : Coded σ (List UInt8) :=
  (Coded.attempt (readBlobHeader o)).andThen (fun nbytes => getnCoded nbytes true) []

/-- `ibstream::read_as`, with as many levels of recursion as there can be. -/
def Context.readValue (C : Context) (t : Ty) : Read Val := fun junk st =>
  C.readAs (st.rest.length + 1) t junk st

/-- The operations that exist in both forms. -/
inductive Operation
  | get
  | peek
  | getn (n : Nat) (strict : Bool)
  | getNum (w : Width)
  | readNil
  | readHeader (f : Family)
  | checkMapKey (key : List UInt8)
  | checkArrayHeader (expected : Nat)
  | checkMapHeader (expected : Nat)
  | readBlob
  | readAs (t : Ty)

namespace Operation

/-- What the operation returns. -/
def Result : Operation → Type
  | .get | .peek => UInt8
  | .getn _ _ | .readBlob => List UInt8
  | .getNum _ => Nat
  | .readNil | .checkMapKey _ | .checkArrayHeader _ | .checkMapHeader _ => Unit
  | .readHeader _ => Option UInt8 × Nat
  | .readAs _ => Val

variable (C : Context) (native : Order)

def throwing : (op : Operation) → Read op.Result
  | .get => Reader.get eof
  | .peek => Reader.peek eof
  | .getn n strict => getnThrowing n strict
  | .getNum w => Bstream.getNum C.order w.size
  | .readNil => Bstream.readNil
  | .readHeader f => f.read C.order
  | .checkMapKey key => Bstream.checkMapKey C.order key
  | .checkArrayHeader expected => Bstream.checkArrayHeader C.order expected
  | .checkMapHeader expected => Bstream.checkMapHeader C.order expected
  | .readBlob => Bstream.readBlob C.order
  | .readAs t => C.readValue t

def coded : (op : Operation) → Coded SavedPtrs op.Result
  | .get => getCoded
  | .peek => peekCoded
  | .getn n strict => getnCoded n strict
  | .getNum w => getNumCoded native C.order w.size
  | .readNil => readNilCoded
  | .readHeader f => .attempt (f.read C.order)
  | .checkMapKey key => checkMapKeyCoded C.order key
  | .checkArrayHeader expected => checkArrayHeaderCoded C.order expected
  | .checkMapHeader expected => checkMapHeaderCoded C.order expected
  | .readBlob => readBlobCoded C.order
  | .readAs t => .attempt (C.readValue t)

end Operation

/-! ### Agreement -/

/-- The second form sets the code just if the first one throws, to the code that it throws, and
otherwise returns the same and leaves the stream in the same place. -/
def Agrees : Except Fault (α × Input σ) → Outcome σ α → Prop
  | .ok (a, st'), out => out = .returned a none st'
  | .error (.system c), out => out = .reported c
  | .error _, _ => False

/-- A header of the family begins on the stream, as far as the code looks. -/
def Begins (f : Family) (bs : List UInt8) : Prop :=
  ∃ c r, bs = c :: r ∧ ∃ form ∈ f.taken, form.Selects c

/-- A complete string is in front. -/
def HasString (o : Order) (bs : List UInt8) : Prop :=
  ∃ header body r, bs = header ++ (body ++ r) ∧ Family.string.Header o header (none, body.length)

/-- On which streams, and with what in the code before the call, the two forms agree. -/
def Operation.Sound (C : Context) : Operation → Option Errc → Input SavedPtrs → Prop
  | .get, code, st | .peek, code, st | .getNum .w8, code, st => code = none ∨ st.rest = []
  | .getNum w, code, st => code = none ∧ w.size ≤ st.rest.length
  | .readNil, _, st => st.rest ≠ []
  | .checkMapKey _, _, st => HasString C.order st.rest
  | .checkArrayHeader _, _, st => Begins .array st.rest
  | .checkMapHeader _, _, st => Begins .map st.rest
  | .getn _ _, _, _ | .readHeader _, _, _ | .readBlob, _, _ => True
  | .readAs t, _, st => ∀ junk, ¬ C.Strays (st.rest.length + 1) t junk (st.onUser Context.savedTypes)

section

variable {code : Option Errc} {junk : Nat → Nat → UInt8} {st : Input σ}

/-- Catching an exception loses nothing as long as it has a code. -/
theorem agrees_attempt (code : Option Errc) (p : Istream σ α) :
    Agrees (p junk st) (Coded.attempt p code junk st) ↔ ¬ ∃ e, p junk st = .error e ∧ ¬ e.IsSystem := by
  unfold Coded.attempt
  cases p junk st with
  | ok x => simp [Agrees]
  | error e =>
    cases e with
    | system c => simp [Agrees, Fault.IsSystem]
    | typeError | badTypeid | undefined | fuel => simp [Agrees, Fault.IsSystem]

/-- A throwing call in the second form is right only if it does not throw. -/
theorem agrees_check (p : Istream σ α) (ok : α → Bool) :
    Agrees (checked p ok junk st) (Coded.check p ok code junk st) ↔ ∃ x, p junk st = .ok x := by
  unfold Coded.check
  cases hp : p junk st with
  | error e =>
    have herror : checked p ok junk st = .error e := bind_error hp
    rw [herror]
    cases e <;> simp [Agrees]
  | ok x =>
    obtain ⟨a, st'⟩ := x
    have hrun : checked p ok junk st = (if ok a then pure () else throw (.system .typeError) :
      Istream σ Unit) junk st' := bind_ok hp
    rw [hrun]
    by_cases hok : ok a
    · simp only [if_pos hok]
      exact iff_of_true rfl ⟨_, rfl⟩
    · simp only [if_neg hok]
      exact iff_of_true rfl ⟨_, rfl⟩

theorem agrees_get (junk : Nat → Nat → UInt8) : Agrees (Reader.get eof junk st) (getCoded code junk st) ↔
    code = none ∨ st.rest = [] := by
  obtain ⟨pos, rest, k, s⟩ := st
  cases rest with
  | nil => exact iff_of_true rfl (.inr rfl)
  | cons b r => simp [Agrees, Reader.get, getCoded]

theorem agrees_peek (junk : Nat → Nat → UInt8) : Agrees (Reader.peek eof junk st) (peekCoded code junk st) ↔
    code = none ∨ st.rest = [] := by
  obtain ⟨pos, rest, k, s⟩ := st
  cases rest with
  | nil => exact iff_of_true rfl (.inr rfl)
  | cons b r => simp [Agrees, Reader.peek, peekCoded]

theorem agrees_getn (code : Option Errc) (n : Nat) (strict : Bool) :
    Agrees (getnThrowing n strict junk st) (getnCoded n strict code junk st) := by
  have hrun : getUpTo n junk st = .ok (st.rest.take n,
    { st with pos := st.pos + min n st.rest.length, rest := st.rest.drop n }) := rfl
  unfold getnThrowing getnCoded
  rw [bind_ok hrun, hrun]
  by_cases hshort : strict ∧ (st.rest.take n).length < n
  · simp only [if_pos hshort]
    rfl
  · simp only [if_neg hshort]
    rfl

theorem getnThrowing_strict (n : Nat) : (getnThrowing n true : Istream σ _) = getn eof n := by
  funext junk st
  have hrun : getUpTo n junk st = .ok (st.rest.take n,
    { st with pos := st.pos + min n st.rest.length, rest := st.rest.drop n }) := rfl
  rw [getnThrowing, bind_ok hrun]
  unfold getn
  by_cases hshort : st.rest.length < n
  · rw [if_pos hshort, if_pos ⟨rfl, by simp; omega⟩]
    rfl
  · rw [if_neg hshort, if_neg (by simp; omega), min_eq_left (by omega)]
    rfl

theorem agrees_readBlob (code : Option Errc) (o : Order) :
    Agrees (readBlob o junk st) (readBlobCoded o code junk st) := by
  unfold readBlob readBlobCoded Coded.andThen Coded.attempt
  cases hheader : readBlobHeader o junk st with
  | error e =>
    obtain ⟨c, rfl⟩ := (leaf_readBlobHeader o).raises hheader
    rw [bind_error hheader]
    rfl
  | ok x =>
    obtain ⟨nbytes, st'⟩ := x
    rw [bind_ok hheader, ← getnThrowing_strict]
    exact agrees_getn none nbytes true

/-- A local that holds ones completes a number with ones. -/
theorem ones_mem_missing (k : Nat) {w : Nat} {r : List UInt8} (hcut : r.length < w) :
    255 ∈ missing (fun _ _ => 255) k w r := by
  unfold missing
  refine List.mem_map.mpr ⟨0, List.mem_range.mpr ?_, rfl⟩
  omega

theorem agrees_getNum_one (native o : Order) (junk : Nat → Nat → UInt8) :
    Agrees (getNum o 1 junk st) (getNumCoded native o 1 code junk st) ↔ code = none ∨ st.rest = [] := by
  obtain ⟨pos, rest, k, s⟩ := st
  cases rest with
  | nil => exact iff_of_true rfl (.inr rfl)
  | cons b r =>
    have hrun : getNum o 1 junk ⟨pos, b :: r, k, s⟩ = .ok (b.toNat, ⟨pos + 1, r, k, s⟩) := rfl
    rw [hrun]
    simp [Agrees, getNumCoded, getCoded]

theorem agrees_getNum (native o : Order) {w : Nat} (hw : 1 < w) :
    (∀ junk, Agrees (getNum o w junk st) (getNumCoded native o w code junk st)) ↔
      code = none ∧ w ≤ st.rest.length := by
  obtain ⟨pos, rest, k, s⟩ := st
  have hone : w ≠ 1 := by omega
  by_cases hcut : rest.length < w
  · have hcoded : ∀ junk, getNumCoded native o w code junk ⟨pos, rest, k, s⟩ =
        .returned (o.value (rest ++ List.replicate (w - rest.length) 0)) none
          ⟨pos + rest.length, [], k + 1, s⟩ := fun junk => by
      rw [getNumCoded, if_neg hone, if_pos hcut]
    refine iff_of_false ?_ (by simp; omega)
    -- the two locals differ when the uninitialised one holds ones
    intro h
    have hagree := h fun _ _ => 255
    rw [getNum_cut hw hcut, hcoded] at hagree
    obtain ⟨hvalue, -⟩ := Outcome.returned.inj hagree
    have hmissing := List.append_cancel_left (o.value_injective (by simp [missing]) hvalue)
    have hmem := ones_mem_missing k hcut
    rw [← hmissing] at hmem
    cases List.eq_of_mem_replicate hmem
  · have hcoded : ∀ junk, getNumCoded native o w code junk ⟨pos, rest, k, s⟩ =
        .returned ((if code.isSome then native else o).value (rest.take w)) code
          ⟨pos + w, rest.drop w, k, s⟩ := fun junk => by
      rw [getNumCoded, if_neg hone, if_neg hcut]
    have hle : w ≤ rest.length := Nat.not_lt.mp hcut
    simp only [getNum_run hle, hcoded, Agrees, Outcome.returned.injEq]
    cases code <;> simp [hle]

theorem ok_bind_pure_iff {β : Type} (p : Istream σ α) (g : α → β) :
    (∃ x, (p >>= fun a => pure (g a)) junk st = .ok x) ↔ ∃ x, p junk st = .ok x := by
  cases hp : p junk st with
  | error e =>
    rw [bind_error hp]
    simp
  | ok x =>
    rw [bind_ok hp]
    exact iff_of_true ⟨_, rfl⟩ ⟨x, rfl⟩

/-- Without a type byte and a length of one byte, no end of the stream is noticed. -/
theorem scan_ok_iff (o : Order) (c : UInt8) {forms : List HeaderForm}
    (hforms : ∀ form ∈ forms, ¬ form.typed ∧ form.width ≠ 1) :
    (∃ x, (scan o forms c : Istream σ _) junk st = .ok x) ↔ ∃ form ∈ forms, form.Selects c := by
  obtain ⟨pos, r, k, s⟩ := st
  induction forms with
  | nil => simp [scan, Reader.throw]
  | cons form forms ih =>
    obtain ⟨⟨htyped, hone⟩, hrest⟩ := List.forall_mem_cons.mp hforms
    rw [scan]
    by_cases hselects : form.Selects c
    · rw [if_pos hselects]
      refine iff_of_true ?_ ⟨form, List.mem_cons_self, hselects⟩
      by_cases hcomplete : form.width ≤ r.length
      · have htail : form.tail ≤ r.length := by simpa [HeaderForm.tail, htyped] using hcomplete
        exact ⟨_, HeaderForm.read_complete htail⟩
      · exact ⟨_, HeaderForm.read_cut htyped (by omega) (Nat.not_le.mp hcomplete)⟩
    · rw [if_neg hselects, ih hrest]
      simp [hselects]

theorem family_ok_iff (o : Order) (junk : Nat → Nat → UInt8) {f : Family} (hf : f = .array ∨ f = .map) :
    (∃ x, f.read o junk st = .ok x) ↔ Begins f st.rest := by
  have hforms : ∀ form ∈ f.taken, ¬ form.typed ∧ form.width ≠ 1 := by
    rcases hf with rfl | rfl <;> decide
  obtain ⟨pos, rest, k, s⟩ := st
  cases rest with
  | nil =>
    rw [Family.read_eq]
    refine iff_of_false ?_ ?_
    · rintro ⟨x, hx⟩
      cases hx
    · rintro ⟨c, r, hr, -⟩
      cases hr
  | cons c r =>
    rw [Family.read_run, scan_ok_iff o c hforms]
    constructor
    · exact fun h => ⟨c, r, rfl, h⟩
    · rintro ⟨d, r', hr, h⟩
      obtain ⟨rfl, -⟩ := List.cons.inj hr
      exact h

theorem agrees_checkArrayHeader (o : Order) (expected : Nat) (junk : Nat → Nat → UInt8) :
    Agrees (checkArrayHeader o expected junk st) (checkArrayHeaderCoded o expected code junk st) ↔
      Begins .array st.rest := by
  have hform : (checkArrayHeader o expected : Istream σ Unit) =
      checked (readArrayHeader o) (· == expected) := by
    simp [checkArrayHeader, checked]
  rw [hform]
  refine (agrees_check (readArrayHeader o) (· == expected)).trans ?_
  rw [← family_ok_iff o junk (.inl rfl)]
  exact (ok_bind_pure_iff (readArrayHeader o) fun n => (none, n)).symm

theorem agrees_checkMapHeader (o : Order) (expected : Nat) (junk : Nat → Nat → UInt8) :
    Agrees (checkMapHeader o expected junk st) (checkMapHeaderCoded o expected code junk st) ↔
      Begins .map st.rest := by
  refine (agrees_check (readMapHeader o) (· == expected)).trans ?_
  rw [← family_ok_iff o junk (.inr rfl)]
  exact (ok_bind_pure_iff (readMapHeader o) fun n => (none, n)).symm

theorem agrees_readNil (junk : Nat → Nat → UInt8) :
    Agrees (readNil junk st) (readNilCoded code junk st) ↔ st.rest ≠ [] := by
  refine (agrees_check (get eof) isNilCode).trans ?_
  obtain ⟨pos, _ | ⟨b, r⟩, k, s⟩ := st
  · exact iff_of_false (by rintro ⟨x, hx⟩; cases hx) (not_not_intro rfl)
  · exact iff_of_true ⟨_, rfl⟩ (List.cons_ne_nil b r)

/-! ### Strings -/

theorem getString_eq (o : Order) : (getString o : Istream σ _) =
    (do let x ← Family.string.read o; getn eof x.2) := by
  rw [Family.read, getString, readStringHeader, bind_assoc, bind_assoc]
  refine bind_congr fun c => ?_
  split_ifs <;> rfl

theorem getn_ok_iff (n : Nat) : (∃ x, getn eof n junk st = .ok x) ↔ n ≤ st.rest.length := by
  unfold getn
  by_cases hshort : st.rest.length < n
  · simp [hshort]
  · simp [if_neg hshort, Nat.not_lt.mp hshort]

/-- A string is read whatever the uninitialised local holds just if it is all there. -/
theorem getString_ok_iff (o : Order) :
    (∀ junk, ∃ x, getString o junk st = .ok x) ↔ HasString o st.rest := by
  obtain ⟨pos, rest, k, s⟩ := st
  rw [getString_eq]
  constructor
  · intro h
    -- ones in the missing bytes make a length that is not there
    obtain ⟨x, hx⟩ := h fun _ _ => 255
    cases rest with
    | nil => cases hx
    | cons c r =>
      by_cases hform : ∃ form ∈ Family.string.forms, form.Selects c
      · obtain ⟨form, hmem, hselects⟩ := hform
        have huntyped : ¬ form.typed := fun ht => nomatch (Family.typed_iff hmem).mp ht
        have hread : Family.string.read o (fun _ _ => 255) ⟨pos, c :: r, k, s⟩ = _ :=
          Family.read_of_selects hmem hselects
        by_cases htail : form.tail ≤ r.length
        · rw [HeaderForm.read_complete htail] at hread
          rw [bind_ok hread] at hx
          have hbody : form.length o c r ≤ (r.drop form.tail).length := (getn_ok_iff _).mp ⟨x, hx⟩
          have hheader : Family.string.Header o _ _ := Family.header_of_selects hmem hselects htail
          refine ⟨c :: r.take form.tail, (r.drop form.tail).take (form.length o c r),
            (r.drop form.tail).drop (form.length o c r), ?_, ?_⟩
          · rw [List.take_append_drop, List.cons_append, List.take_append_drop]
          · rw [List.length_take_of_le hbody]
            rwa [HeaderForm.extType, if_neg huntyped] at hheader
        · have hshort : r.length < form.tail := Nat.not_le.mp htail
          have htail_eq : form.tail = form.width := by simp [HeaderForm.tail, huntyped]
          by_cases hwidth : form.width ≤ 1
          · rw [HeaderForm.read_short hshort (.inr hwidth)] at hread
            rw [bind_error hread] at hx
            cases hx
          · rw [HeaderForm.read_cut huntyped (Nat.not_le.mp hwidth) (htail_eq ▸ hshort)] at hread
            rw [bind_ok hread] at hx
            have hzero := Nat.le_zero.mp ((getn_ok_iff _).mp ⟨x, hx⟩)
            have hmem := ones_mem_missing k (htail_eq ▸ hshort)
            cases o.value_eq_zero hzero 255 (List.mem_append_right r hmem)
      · have hnone : ∀ a ∈ Family.string.forms, ¬ a.Selects c := fun a ha hac => hform ⟨a, ha, hac⟩
        have hread : Family.string.read o (fun _ _ => 255) ⟨pos, c :: r, k, s⟩ = _ := Family.read_run
        rw [scan_taken, if_neg (by simp), scan_of_none hnone] at hread
        rw [bind_error hread] at hx
        cases hx
  · rintro ⟨header, body, r, hrest, hheader⟩ junk
    obtain rfl : rest = header ++ (body ++ r) := hrest
    rw [bind_ok (Family.read_header hheader), getn_ok_iff, List.length_append]
    omega

theorem agrees_checkMapKey (o : Order) (key : List UInt8) :
    (∀ junk, Agrees (checkMapKey o key junk st) (checkMapKeyCoded o key code junk st)) ↔
      HasString o st.rest := by
  rw [← getString_ok_iff]
  exact forall_congr' fun junk => agrees_check (getString o) (· == key)

end

theorem forall_junk {P : (Nat → Nat → UInt8) → Prop} {Q : Prop} (h : ∀ junk, P junk ↔ Q) :
    (∀ junk, P junk) ↔ Q :=
  (forall_congr' h).trans (forall_const _)

theorem agrees_readAs (C : Context) (t : Ty) (code : Option Errc) (junk : Nat → Nat → UInt8)
    (st : Input SavedPtrs) :
    Agrees (C.readValue t junk st) (Coded.attempt (C.readValue t) code junk st) ↔
      ¬ C.Strays (st.rest.length + 1) t junk (st.onUser Context.savedTypes) := by
  rw [agrees_attempt, C.strays_iff t junk st (Nat.lt_succ_self _)]
  rfl

/-- Each operation, on every stream, in every context: when its two forms agree. -/
theorem agrees_iff (C : Context) (native : Order) (op : Operation) (code : Option Errc)
    (st : Input SavedPtrs) :
    (∀ junk, Agrees (op.throwing C junk st) (op.coded C native code junk st)) ↔
      op.Sound C code st := by
  cases op with
  | get => exact forall_junk agrees_get
  | peek => exact forall_junk agrees_peek
  | getn n strict =>
    refine iff_of_true (fun junk => ?_) trivial
    exact agrees_getn code n strict
  | getNum w =>
    cases w with
    | w8 => exact forall_junk (agrees_getNum_one native C.order)
    | w16 | w32 | w64 => exact agrees_getNum native C.order (by decide)
  | readNil => exact forall_junk agrees_readNil
  | readHeader f =>
    refine iff_of_true (fun junk => (agrees_attempt code (f.read C.order)).mpr ?_) trivial
    rintro ⟨e, he, hsystem⟩
    exact hsystem ((leaf_family C.order f).raises he)
  | checkMapKey key => exact agrees_checkMapKey C.order key
  | checkArrayHeader expected => exact forall_junk (agrees_checkArrayHeader C.order expected)
  | checkMapHeader expected => exact forall_junk (agrees_checkMapHeader C.order expected)
  | readBlob =>
    refine iff_of_true (fun junk => ?_) trivial
    exact agrees_readBlob code C.order
  | readAs t => exact forall_congr' fun junk => agrees_readAs C t code junk st

/-- At the end of the stream four operations throw in both forms, and of a number that is cut off
the two forms return different things. -/
theorem overloads_differ : ¬ ∃ x ∈ [(Operation.readNil, []), (.checkMapKey [0x61], []),
      (.checkArrayHeader 2, []), (.checkMapHeader 2, []), (.getNum .w16, [0x01])],
    ∀ junk, Agrees (x.1.throwing Context.starContext junk ⟨0, x.2, 0, {}⟩)
      (x.1.coded Context.starContext .little none junk ⟨0, x.2, 0, {}⟩) := by
  rintro ⟨x, hx, h⟩
  revert x
  simp only [List.forall_mem_cons, List.not_mem_nil, false_imp_iff, implies_true, and_true]
  refine ⟨?_, ?_, ?_, ?_, ?_⟩
  · intro h
    cases h fun _ _ => 0
  · intro h
    cases h fun _ _ => 0
  · intro h
    cases h fun _ _ => 0
  · intro h
    cases h fun _ _ => 0
  · intro h
    obtain ⟨-, hlength⟩ := (agrees_getNum .little .big (by decide)).mp h
    revert hlength
    decide

end Nodeoze.Bstream
