import Nodeoze.Lib.Splice
import Mathlib.Logic.Function.Basic

/-!
# Files

A disk is a directory of paths and the contents of the inodes.  An open file description has an
offset of its own, and is in append mode or not: `write` goes to the offset, or to the end of the
file in append mode, fills a gap before it with zeros and refuses to go beyond the largest offset;
`ftruncate` changes the length of the file and leaves the offset alone; `rename` replaces its
target in one step.

A `World` keeps the disks of the past: a process that stops leaves one of them behind.
-/

namespace Posix

open Splice

/-- The errors that the calls report. -/
inductive Errno
  | badf
  | fbig
  | noent
  deriving DecidableEq, Repr

/-- The largest value of `off_t`. -/
def maxOffset : Nat := 2 ^ 63 - 1

@[ext]
structure Disk (π : Type) where
  dir : π → Option Nat
  inode : Nat → List UInt8
  next : Nat

/-- The inodes that the directory names have been given out. -/
def Disk.WF {π : Type} (d : Disk π) : Prop := ∀ p i, d.dir p = some i → i < d.next

structure World (π : Type) where
  disk : Disk π
  past : List (Disk π)

structure OpenFile where
  inode : Nat
  offset : Nat
  append : Bool
  deriving DecidableEq, Repr

structure Flags where
  creat : Bool
  trunc : Bool
  append : Bool
  deriving DecidableEq, Repr

variable {π : Type}

/-- The bytes of the file at a path. -/
def Disk.content (d : Disk π) (path : π) : Option (List UInt8) := (d.dir path).map d.inode

def Disk.setInode (d : Disk π) (i : Nat) (bs : List UInt8) : Disk π :=
  { d with inode := Function.update d.inode i bs }

namespace World

/-- The disk changes. -/
def commit (w : World π) (d : Disk π) : World π := ⟨d, w.disk :: w.past⟩

def write (w : World π) (f : OpenFile) (bs : List UInt8) : Except Errno (World π × OpenFile) :=
  let old := w.disk.inode f.inode
  let off := if f.append then old.length else f.offset
  if bs.isEmpty then .ok (w, f)
  else if maxOffset < off + bs.length then .error .fbig
  else .ok (w.commit (w.disk.setInode f.inode (Writer.write 0 ⟨old, off⟩ bs).bytes),
    { f with offset := off + bs.length })

def read (w : World π) (f : OpenFile) (n : Nat) : List UInt8 × OpenFile :=
  let bs := ((w.disk.inode f.inode).drop f.offset).take n
  (bs, { f with offset := f.offset + bs.length })

/-- `ftruncate` -/
def truncate (w : World π) (f : OpenFile) (n : Nat) : World π :=
  w.commit (w.disk.setInode f.inode ((pad 0 (w.disk.inode f.inode) n).take n))

/-- `lseek( fd, 0, SEEK_END )` -/
def seekEnd (w : World π) (f : OpenFile) : OpenFile :=
  { f with offset := (w.disk.inode f.inode).length }

def fileExists (w : World π) (path : π) : Bool := (w.disk.dir path).isSome

variable [DecidableEq π]

def open_ (w : World π) (path : π) (flags : Flags) : Except Errno (World π × OpenFile) :=
  match w.disk.dir path with
  | some i =>
    .ok (if flags.trunc then w.commit (w.disk.setInode i []) else w, ⟨i, 0, flags.append⟩)
  | none =>
    if flags.creat then
      let d := w.disk.setInode w.disk.next []
      .ok (w.commit { d with dir := Function.update d.dir path (some d.next), next := d.next + 1 },
        ⟨w.disk.next, 0, flags.append⟩)
    else .error .noent

/-- Take the file away from its path; descriptors of it stay valid. -/
def remove (w : World π) (path : π) : World π :=
  w.commit { w.disk with dir := Function.update w.disk.dir path none }

def rename (w : World π) (old new : π) : Except Errno (World π) :=
  match w.disk.dir old with
  | none => .error .noent
  | some i =>
    if old = new then .ok w
    else .ok (w.commit
      { w.disk with dir := Function.update (Function.update w.disk.dir new (some i)) old none })

end World

/-! ### What a call leaves alone -/

/-- The disks differ at most in the bytes of inode `i`. -/
structure Disk.SameExcept (i : Nat) (d d' : Disk π) : Prop where
  dir : d'.dir = d.dir
  next : d'.next = d.next
  inode : ∀ j, j ≠ i → d'.inode j = d.inode j

theorem Disk.SameExcept.refl (i : Nat) (d : Disk π) : d.SameExcept i d :=
  ⟨rfl, rfl, fun _ _ => rfl⟩

theorem Disk.SameExcept.trans {i : Nat} {d d' d'' : Disk π} (h : d.SameExcept i d')
    (h' : d'.SameExcept i d'') : d.SameExcept i d'' :=
  ⟨h'.dir.trans h.dir, h'.next.trans h.next, fun j hj => (h'.inode j hj).trans (h.inode j hj)⟩

theorem Disk.sameExcept_setInode (d : Disk π) (i : Nat) (bs : List UInt8) :
    d.SameExcept i (d.setInode i bs) :=
  ⟨rfl, rfl, fun _ hj => Function.update_of_ne hj _ _⟩

@[simp] theorem Disk.setInode_self (d : Disk π) (i : Nat) (bs : List UInt8) :
    (d.setInode i bs).inode i = bs :=
  Function.update_self ..

/-- From `w` to `w'` only the bytes of inode `i` were ever touched. -/
structure World.Touches (i : Nat) (w w' : World π) : Prop where
  disk : w.disk.SameExcept i w'.disk
  past : ∃ ds, w'.past = ds ++ w.past ∧ ∀ d ∈ ds, w.disk.SameExcept i d

namespace World

theorem Touches.refl (i : Nat) (w : World π) : w.Touches i w :=
  ⟨.refl i _, [], rfl, fun _ h => nomatch h⟩

theorem Touches.trans {i : Nat} {w w' w'' : World π} (h : w.Touches i w') (h' : w'.Touches i w'') :
    w.Touches i w'' := by
  obtain ⟨ds, hds, hsame⟩ := h.past
  obtain ⟨ds', hds', hsame'⟩ := h'.past
  refine ⟨h.disk.trans h'.disk, ds' ++ ds, by rw [hds', hds, List.append_assoc], ?_⟩
  intro d hd
  rcases List.mem_append.mp hd with hd | hd
  · exact h.disk.trans (hsame' d hd)
  · exact hsame d hd

theorem touches_setInode (w : World π) (i : Nat) (bs : List UInt8) :
    w.Touches i (w.commit (w.disk.setInode i bs)) :=
  ⟨w.disk.sameExcept_setInode i bs, [w.disk], rfl, fun d hd => by
    rw [List.mem_singleton.mp hd]
    exact .refl i _⟩

/-- A write at the end of the file. -/
theorem write_atEnd (w : World π) (f : OpenFile) (bs : List UInt8) {c : List UInt8}
    (hc : w.disk.inode f.inode = c) (hoff : f.append = true ∨ f.offset = c.length) :
    w.write f bs = .error .fbig ∨
      ∃ w' f', w.write f bs = .ok (w', f') ∧ w.Touches f.inode w' ∧
        w'.disk.inode f.inode = c ++ bs ∧ f'.inode = f.inode ∧ f'.append = f.append ∧
        (f'.append = true ∨ f'.offset = (c ++ bs).length) ∧
        (bs = [] ∨ (c ++ bs).length ≤ maxOffset) := by
  have hend : (if f.append then c.length else f.offset) = c.length := by
    rcases hoff with h | h <;> simp [h]
  by_cases hbs : bs = []
  · right
    subst hbs
    rw [List.append_nil]
    exact ⟨w, f, by simp [write], .refl _ w, hc, rfl, rfl, hoff, .inl rfl⟩
  · have hne : bs.isEmpty = false := by simpa using hbs
    by_cases hbig : maxOffset < c.length + bs.length
    · left
      simp [write, hne, hc, hend, hbig]
    · right
      have hbytes : (Writer.write 0 ⟨c, c.length⟩ bs).bytes = c ++ bs := by
        simp [Writer.write, pad, splice]
      refine ⟨w.commit (w.disk.setInode f.inode (c ++ bs)), { f with offset := c.length + bs.length },
        by simp [write, hne, hc, hend, hbig, hbytes], touches_setInode w f.inode _, ?_, rfl, rfl,
        ?_, ?_⟩
      · simp [commit]
      · right
        rw [List.length_append]
      · right
        rw [List.length_append]
        omega

/-- A write at the descriptor's offset. -/
theorem write_offset (w : World π) {f : OpenFile} (happ : f.append = false) (bs : List UInt8)
    {c : List UInt8} (hc : w.disk.inode f.inode = c) :
    w.write f bs = .error .fbig ∨
      ∃ w', w.write f bs = .ok (w', { f with offset := f.offset + bs.length }) ∧
        w.Touches f.inode w' ∧
        w'.disk.inode f.inode = ((⟨c, f.offset⟩ : Writer UInt8).writes 0 bs).bytes := by
  by_cases hbs : bs = []
  · right
    subst hbs
    exact ⟨w, by simp [write], .refl _ w, hc⟩
  · have hne : bs.isEmpty = false := by simpa using hbs
    by_cases hbig : maxOffset < f.offset + bs.length
    · left
      simp [write, hne, happ, hbig]
    · right
      rw [Writer.writes_of_ne_nil 0 _ hbs]
      refine ⟨w.commit (w.disk.setInode f.inode (Writer.write 0 ⟨c, f.offset⟩ bs).bytes),
        by simp [write, hne, hc, happ, hbig], touches_setInode w f.inode _, ?_⟩
      simp [commit]

/-- What `open` with `O_CREAT | O_TRUNC` does: the path names an empty file `i`, either the one it
named before or a new one. -/
structure Emptied [DecidableEq π] (w w' : World π) (path : π) (i : Nat) : Prop where
  file : w.disk.dir path = some i ∨ (w.disk.dir path = none ∧ i = w.disk.next)
  dir : w'.disk.dir = Function.update w.disk.dir path (some i)
  empty : w'.disk.inode i = []
  inode : ∀ j, j ≠ i → w'.disk.inode j = w.disk.inode j
  next : w.disk.next ≤ w'.disk.next ∧ (w.disk.dir path = none → i < w'.disk.next)
  past : w'.past = w.disk :: w.past

theorem open_trunc [DecidableEq π] (w : World π) (path : π) (append : Bool) :
    ∃ w' i, w.open_ path ⟨true, true, append⟩ = .ok (w', ⟨i, 0, append⟩) ∧ w.Emptied w' path i := by
  rcases hdir : w.disk.dir path with _ | i
  · refine ⟨_, w.disk.next, by rw [open_, hdir]; rfl, ?_⟩
    exact {
      file := .inr ⟨hdir, rfl⟩
      dir := rfl
      empty := Function.update_self ..
      inode := fun j hj => Function.update_of_ne hj _ _
      next := ⟨Nat.le_succ _, fun _ => Nat.lt_succ_self _⟩
      past := rfl }
  · have hopen : w.open_ path ⟨true, true, append⟩ =
        .ok (w.commit (w.disk.setInode i []), ⟨i, 0, append⟩) := by
      rw [open_, hdir]
      rfl
    refine ⟨_, i, hopen, ?_⟩
    exact {
      file := .inl hdir
      dir := by
        rw [← hdir, Function.update_eq_self]
        rfl
      empty := Function.update_self ..
      inode := fun j hj => Function.update_of_ne hj _ _
      next := ⟨le_rfl, fun hnone => by rw [hdir] at hnone; cases hnone⟩
      past := rfl }

theorem Emptied.wf [DecidableEq π] {w w' : World π} {path : π} {i : Nat}
    (he : w.Emptied w' path i) (h : w.disk.WF) : w'.disk.WF := by
  intro p k hp
  rw [he.dir] at hp
  by_cases hpath : p = path
  · rw [hpath, Function.update_self] at hp
    obtain rfl := Option.some.inj hp
    rcases he.file with hold | ⟨hnone, -⟩
    · exact lt_of_lt_of_le (h path i hold) he.next.1
    · exact he.next.2 hnone
  · rw [Function.update_of_ne hpath] at hp
    exact lt_of_lt_of_le (h p k hp) he.next.1

theorem remove_wf [DecidableEq π] {w : World π} (h : w.disk.WF) (path : π) :
    (w.remove path).disk.WF := by
  intro p k hp
  have hp' : Function.update w.disk.dir path none p = some k := hp
  by_cases hpath : p = path
  · rw [hpath, Function.update_self] at hp'
    cases hp'
  · rw [Function.update_of_ne hpath] at hp'
    exact h p k hp'

end World

/-! ### Calls that may fail -/

section Ends

variable {ε α β : Type} {A B : ε → Prop} {r : Except ε α} {P Q : α → Prop}

/-- The call returns a value with property `P`, or an error among those in `A`. -/
inductive Ends (A : ε → Prop) : Except ε α → (α → Prop) → Prop
  | ok {a : α} {P : α → Prop} : P a → Ends A (.ok a) P
  | error {e : ε} {P : α → Prop} : A e → Ends A (.error e) P

theorem Ends.bind_ok {f : α → Except ε β} {S : β → Prop} (hr : Ends A r P)
    (hf : ∀ a, r = .ok a → P a → Ends A (f a) S) : Ends A (r >>= f) S := by
  cases hr with
  | ok h => exact hf _ rfl h
  | error h => exact .error h

theorem Ends.bind {f : α → Except ε β} {S : β → Prop} (hr : Ends A r P)
    (hf : ∀ a, P a → Ends A (f a) S) : Ends A (r >>= f) S :=
  hr.bind_ok fun a _ => hf a

/-- A call that is known to return `a`. -/
theorem Ends.after {f : α → Except ε β} {S : β → Prop} {a : α} (hr : r = .ok a)
    (hf : Ends A (f a) S) : Ends A (r >>= f) S := by
  rw [hr]
  exact hf

theorem Ends.imp (hr : Ends A r P) (hP : ∀ a, P a → Q a) : Ends A r Q := by
  cases hr with
  | ok h => exact .ok (hP _ h)
  | error h => exact .error h

theorem Ends.allow (hr : Ends A r P) (hA : ∀ e, A e → B e) : Ends B r P := by
  cases hr with
  | ok h => exact .ok h
  | error h => exact .error (hA _ h)

/-- A call of which only the value matters. -/
theorem Ends.of_value (h : ∀ a, r = .ok a → P a) : Ends (fun _ => True) r P := by
  cases hr : r with
  | error e => exact .error trivial
  | ok a => exact .ok (h a hr)

theorem Ends.of_ok {a : α} (hr : Ends A r P) (h : r = .ok a) : P a := by
  subst h
  cases hr with
  | ok h => exact h

/-- A call that ends with none of the errors returns a value. -/
theorem Ends.returns (hr : Ends A r P) (hA : ∀ e, A e → r ≠ .error e) : ∃ a, r = .ok a ∧ P a := by
  cases hr with
  | ok h => exact ⟨_, rfl, h⟩
  | error h => exact absurd rfl (hA _ h)

end Ends

end Posix
