import Mathlib.Algebra.Order.Ring.Int
import Nodeoze.Lib.Runs
import Nodeoze.Rpc.Errors

/-!
# Requests and replies

A client and a server exchange messages, which may be delivered in any order, more than once or not at
all.  The client numbers its requests with a counter of 32 bits; the number goes into the table as a
key of 64 bits, onto the wire as an integer, through 32 bits on the server and back.

A promise that is settled calls back, and whatever can be done to the client may be done then.
`terminate_requests` walks over the table and settles promises on its way: a `Walk` is one that has not
come to its end.  What it stands on may be taken away meanwhile; going on is undefined then.
-/

namespace Nodeoze.Rpc

open Any (text member toUint64)
open Runs

variable (describe : Nat → Int32 → Key) {H H' P' : Type}

/-- `terminate_requests` on its way: the owner, and the key of the entry that the iterator stands on, if
not at the end.  `doomed` records the requests of the owner when it started. -/
structure Walk where
  owner : Nat
  it : Option Nat
  doomed : List Nat

inductive Cause
  | reply (origin : Nat)
  | interrupted
  deriving DecidableEq, Repr

/-- A client and its messages.  The requests are numbered from one, and the number is the promise;
`calls` are the reply functions that request handlers of the server were given, `replies` the replies,
each with the number of its request.  Recorded are the promises that were settled, the requests whose
reply has come, and those that were terminated. -/
structure Net (H : Type) where
  client : Manager H Nat
  requests : List Any
  calls : List (Nat × UInt32)
  replies : List (Nat × Any)
  walks : List Walk
  settled : List (Nat × Cause)
  answered : List Nat
  terminated : List Nat
  undefined : Bool

inductive Act (H' P' : Type)
  | send (method : Key) (args : List Any) (owner : Nat)
  | serve (server : Manager H' P') (n : Nat)
  | answer (j : Nat) (root : Any)
  | deliver (j : Nat)
  | terminate (owner : Nat)
  | resume

def callOf (origin : Nat) : Effect H' P' → Option (Nat × UInt32)
  | .request _ _ id => some (origin, id)
  | _ => none

def replyOf (origin : Nat) : Effect H' P' → Option (Nat × Any)
  | .reply message _ => some (origin, message)
  | _ => none

def settledBy (origin : Nat) : Effect H Nat → Option (Nat × Cause)
  | .resolve p _ => some (p, .reply origin)
  | .reject p _ => some (p, .reply origin)
  | _ => none

/-- The next entry of the owner, from where the iterator stands. -/
def Walk.target (w : Walk) (table : SortedMap Nat (Nat × Nat)) : Option (Nat × Nat × Nat) :=
  w.it.bind fun k => table.firstWhere fun e => decide (k ≤ e.1) && decide (e.2.1 = w.owner)

namespace Net

def create (client : Manager H Nat) : Net H :=
  ⟨{ client with replyHandlers := .empty, id := 0 }, [], [], [], [], [], [], [], false⟩

def send (s : Net H) (method : Key) (args : List Any) (owner : Nat) : Net H :=
  match s.client.sendRequest method args owner (s.requests.length + 1) with
  | some (client, message) => { s with client := client, requests := s.requests ++ [message] }
  | none => { s with undefined := true }

/-- A server is given a request. -/
def serve (s : Net H) (server : Manager H' P') (n : Nat) : Option (Net H) :=
  (s.requests[n]?).map fun message =>
    let effects := (server.dispatch describe message).2
    { s with calls := s.calls ++ effects.filterMap (callOf (n + 1)),
             replies := s.replies ++ effects.filterMap (replyOf (n + 1)) }

/-- A request handler calls its reply function. -/
def answer (s : Net H) (j : Nat) (root : Any) : Option (Net H) :=
  (s.calls[j]?).map fun call => { s with replies := s.replies ++ [(call.1, replyWith call.2 root)] }

/-- The client is given a reply. -/
def deliver (s : Net H) (j : Nat) : Option (Net H) :=
  (s.replies[j]?).map fun reply =>
    let (client, effects) := s.client.dispatch describe reply.2
    { s with client := client, settled := s.settled ++ effects.filterMap (settledBy reply.1),
             answered := s.answered ++ [reply.1] }

/-- `terminate_requests`, up to its loop. -/
def terminate (s : Net H) (owner : Nat) : Net H :=
  let doomed := (s.client.replyHandlers.entries.filter fun e => decide (e.2.1 = owner)).map fun e => e.2.2
  { s with walks := ⟨owner, s.client.replyHandlers.first, doomed⟩ :: s.walks,
           terminated := s.terminated ++ doomed }

/-- The loop of `terminate_requests`, up to the next promise that it rejects: the entry is erased
first, and the iterator stands on the one behind it. -/
def resume (s : Net H) : Option (Net H) :=
  match s.walks with
  | [] => none
  | w :: walks =>
    if w.it.any fun k => (s.client.replyHandlers.find k).isNone then some { s with undefined := true }
    else
      match w.target s.client.replyHandlers with
      | none => some { s with walks := walks }
      | some (k, _, p) =>
        some { s with client := { s.client with replyHandlers := s.client.replyHandlers.erase k },
                      walks := { w with it := (s.client.replyHandlers.erase k).next k } :: walks,
                      settled := s.settled ++ [(p, .interrupted)],
                      terminated := s.terminated ++ [p] }

end Net

/-- Nothing follows what is undefined. -/
def step (s : Net H) (a : Act H' P') : Option (Net H) :=
  if s.undefined then none
  else
    match a with
    | .send method args owner => some (s.send method args owner)
    | .serve server n => s.serve describe server n
    | .answer j root => s.answer j root
    | .deliver j => s.deliver describe j
    | .terminate owner => some (s.terminate owner)
    | .resume => s.resume

/-! ## What should hold -/

def Net.done (s : Net H) : List Nat := s.settled.map Prod.fst

/-- Every promise is settled by its own reply, or interrupted, and once; a request whose reply has come
is settled; and when no walk is on its way, those requests wait that were neither answered nor
terminated. -/
structure Correlated (s : Net H) : Prop where
  defined : s.undefined = false
  own : ∀ p origin, (p, .reply origin) ∈ s.settled → p = origin
  once : s.done.Nodup
  answered : ∀ n ∈ s.answered, n ∈ s.done
  waiting : s.walks = [] → ∀ n, (∃ key owner, s.client.replyHandlers.find key = some (owner, n)) ↔
    1 ≤ n ∧ n ≤ s.requests.length ∧ n ∉ s.answered ∧ n ∉ s.terminated

/-- The counter has a next number; the preflight handler leaves the id of a request alone, and what a
handler replies with does not look like a request; and no entry is taken away that a walk stands on. -/
def Allowed (s : Net H) : Act H' P' → Prop
  | .send _ _ _ => s.client.id ≠ Int32.maxValue
  | .serve server n => ∀ message f, s.requests[n]? = some message → server.preflight = some f →
      member (f message).1 (text "id") = member message (text "id")
  | .answer _ root => isMember root (text "method") = false
  | .deliver j => ∀ reply key, s.replies[j]? = some reply → Manager.replyKey reply.2 = some key →
      ∀ w ∈ s.walks, w.it ≠ some key
  | .terminate _ => True
  | .resume => ∀ w walks e, s.walks = w :: walks → w.target s.client.replyHandlers = some e →
      ∀ w' ∈ walks, w'.it ≠ some e.1

/-! ## The way of a number -/

theorem toInt_succ {id : Int32} (h : id ≠ Int32.maxValue) : (id + 1).toInt = id.toInt + 1 := by
  have hlt : id.toInt < 2 ^ 31 - 1 := by
    have hle := id.toInt_lt
    have hne : id.toInt ≠ 2 ^ 31 - 1 := fun heq => h (Int32.toInt.inj (by rw [heq]; rfl))
    omega
  have hge := id.le_toInt
  rw [Int32.toInt_add, Int32.toInt_one]
  apply Int.bmod_eq_of_le <;> omega

theorem toInt64_of_toInt {id : Int32} {n : Nat} (h : id.toInt = n) : id.toInt64 = Int64.ofNat n := by
  apply Int64.toInt.inj
  have hlt := id.toInt_lt
  rw [Int32.toInt_toInt64, h, Int64.toInt_ofNat_of_lt (by omega)]

theorem toNat_ofNat {n : Nat} (h : n < 2 ^ 31) : (Int64.ofNat n).toUInt64.toNat = n := by
  simp
  omega

/-- From the wire to the key, on the client. -/
theorem toUint64_ofNat {n : Nat} (h : n < 2 ^ 31) : (toUint64 (Int64.ofNat n)).toNat = n := by
  have hnonneg : 0 ≤ Int64.ofNat n := by
    rw [Int64.le_iff_toInt_le, Int64.toInt_ofNat_of_lt (by omega)]
    simp
  rw [toUint64, if_pos hnonneg, toNat_ofNat h]

/-- Through the 32 bits of the server. -/
theorem toInt64_toUInt32 {n : Nat} (h : n < 2 ^ 31) :
    (Int64.ofNat n).toUInt64.toUInt32.toUInt64.toInt64 = Int64.ofNat n := by
  have hwide : (Int64.ofNat n).toUInt64.toUInt32.toUInt64 = (Int64.ofNat n).toUInt64 := by
    apply UInt64.toNat.inj
    rw [UInt32.toNat_toUInt64, UInt64.toNat_toUInt32, toNat_ofNat h]
    omega
  rw [hwide, Int64.toInt64_toUInt64]

/-- A message that the client takes for the reply to a request. -/
structure IsReply (message : Any) (n : Nat) : Prop where
  valid : validate message = none
  method : isMember message (text "method") = false
  key : Manager.replyKey message = some n

theorem isReply_makeErrorReply {n : Nat} (hn : n < 2 ^ 31) {in_ : Any}
    (hid : member in_ (text "id") = .integer (Int64.ofNat n)) (err : ErrorCode) :
    IsReply (makeErrorReply describe in_ err) n where
  valid := by
    rw [validate_makeErrorReply, hid]
    rfl
  method := rfl
  key := by
    change Manager.replyKey in_ = some n
    rw [Manager.replyKey, hid]
    simp only [toUint64_ofNat hn]

theorem isReply_replyWith {n : Nat} (hn : n < 2 ^ 31) {root : Any}
    (hroot : isMember root (text "method") = false) :
    IsReply (replyWith (Int64.ofNat n).toUInt64.toUInt32 root) n := by
  have hid : lookup (replyWith (Int64.ofNat n).toUInt64.toUInt32 root) (text "id")
      = some (.integer (Int64.ofNat n)) := by
    rw [replyWith, lookup_put_self, toInt64_toUInt32 hn]
  have hjsonrpc : lookup (replyWith (Int64.ofNat n).toUInt64.toUInt32 root) (text "jsonrpc")
      = some (.string (text "2.0")) := by
    rw [replyWith, lookup_put_ne _ (by decide), lookup_put_self]
  have hmethod : isMember (replyWith (Int64.ofNat n).toUInt64.toUInt32 root) (text "method") = false := by
    rw [isMember_eq, replyWith, lookup_put_ne _ (by decide), lookup_put_ne _ (by decide), ← isMember_eq,
      hroot]
  have hobject : isObject (replyWith (Int64.ofNat n).toUInt64.toUInt32 root) = true := isObject_put _ _ _
  refine ⟨?_, hmethod, ?_⟩
  · unfold validate
    rw [hmethod, hobject, isMember_eq, hjsonrpc, isMember_eq, hid, member_eq, hjsonrpc, member_eq, hid]
    rfl
  · unfold Manager.replyKey
    rw [member_eq, hid]
    simp only [Option.getD_some, toUint64_ofNat hn]

/-- What a server does with a request: it replies with an error, or hands its number on. -/
def Served (server : Manager H' P') (message : Any) : Effect H' P' → Prop
  | .reply r _ => ∃ message' err, server.request message = .error (message', err) ∧
      r = makeErrorReply describe message' err
  | .request _ _ id => id = toUint32 (member message (text "id"))
  | _ => True

theorem served_dispatch (server : Manager H' P') (message : Any) :
    ∀ e ∈ (server.dispatch describe message).2, Served describe server message e := by
  intro e he
  unfold Manager.dispatch at he
  split at he
  · simp at he
  · split_ifs at he
    · split at he
      · obtain rfl := List.mem_singleton.mp he
        rfl
      · rename_i message' err hrequest
        obtain rfl := List.mem_singleton.mp he
        exact ⟨message', err, hrequest, rfl⟩
    · split at he
      · simp only at he
        split_ifs at he
        · obtain rfl := List.mem_singleton.mp he
          trivial
        · simp at he
      · simp at he
    · unfold Manager.reply at he
      split at he
      · simp at he
      · obtain rfl := List.mem_singleton.mp he
        unfold Manager.settlement
        split <;> trivial

/-- The preflight handler has left the id alone. -/
theorem id_of_request_error {server : Manager H' P'} {message message' : Any} {err : ErrorCode}
    (h : server.request message = .error (message', err))
    (hleft : ∀ f, server.preflight = some f →
      member (f message).1 (text "id") = member message (text "id")) :
    member message' (text "id") = member message (text "id") := by
  rw [(request_error h).1]
  unfold Manager.preflighted
  split
  · rename_i f hf
    exact hleft f hf
  · rfl

/-! ## What a run keeps -/

def Net.Sent (s : Net H) (n : Nat) : Prop := 1 ≤ n ∧ n ≤ s.requests.length

/-- A walk stands on an entry, and what it has to terminate is not behind it. -/
structure Walk.Intact (w : Walk) (table : SortedMap Nat (Nat × Nat)) (done : List Nat) : Prop where
  stands : ∀ k, w.it = some k → (table.find k).isSome = true
  doomed : ∀ n ∈ w.doomed, n ∉ done → table.find n = some (w.owner, n) ∧ ∃ k, w.it = some k ∧ k ≤ n

structure Inv (s : Net H) : Prop where
  defined : s.undefined = false
  counter : s.client.id.toInt = s.requests.length
  requests : ∀ n message, s.requests[n]? = some message →
    member message (text "id") = .integer (Int64.ofNat (n + 1))
  calls : ∀ call ∈ s.calls, s.Sent call.1 ∧ call.2 = (Int64.ofNat call.1).toUInt64.toUInt32
  replies : ∀ reply ∈ s.replies, s.Sent reply.1 ∧ IsReply reply.2 reply.1
  promise : ∀ k owner p, s.client.replyHandlers.find k = some (owner, p) → p = k
  table : ∀ n, (s.client.replyHandlers.find n).isSome = true ↔ s.Sent n ∧ n ∉ s.done
  own : ∀ p origin, (p, .reply origin) ∈ s.settled → p = origin
  once : s.done.Nodup
  sent : ∀ n ∈ s.done, s.Sent n
  answered : ∀ n ∈ s.answered, n ∈ s.done
  settled : ∀ n ∈ s.done, n ∈ s.answered ∨ n ∈ s.terminated
  terminated : ∀ n ∈ s.terminated, n ∈ s.done ∨ ∃ w ∈ s.walks, n ∈ w.doomed
  walks : ∀ w ∈ s.walks, w.Intact s.client.replyHandlers s.done

theorem inv_create (client : Manager H Nat) : Inv (Net.create client) where
  defined := rfl
  counter := rfl
  requests := fun _ _ h => by simp [Net.create] at h
  calls := fun _ h => nomatch h
  replies := fun _ h => nomatch h
  promise := fun _ _ _ h => by simp [Net.create, SortedMap.empty, SortedMap.find] at h
  table := by
    intro n
    constructor
    · intro h
      simp [Net.create, SortedMap.empty, SortedMap.find] at h
    · rintro ⟨⟨hpos, hle⟩, -⟩
      simp [Net.create] at hle
      omega
  own := fun _ _ h => nomatch h
  once := List.nodup_nil
  sent := fun _ h => nomatch h
  answered := fun _ h => nomatch h
  settled := fun _ h => nomatch h
  terminated := fun _ h => nomatch h
  walks := fun _ h => nomatch h

theorem Inv.length_lt {s : Net H} (h : Inv s) : s.requests.length < 2 ^ 31 := by
  have hlt := s.client.id.toInt_lt
  have hcounter := h.counter
  omega

theorem Inv.find_eq {s : Net H} (h : Inv s) {n : Nat} (hsent : s.Sent n) (hdone : n ∉ s.done) :
    ∃ owner, s.client.replyHandlers.find n = some (owner, n) := by
  obtain ⟨⟨owner, p⟩, hfind⟩ := Option.isSome_iff_exists.mp ((h.table n).mpr ⟨hsent, hdone⟩)
  obtain rfl := h.promise n owner p hfind
  exact ⟨owner, hfind⟩

theorem Inv.correlated {s : Net H} (h : Inv s) : Correlated s where
  defined := h.defined
  own := h.own
  once := h.once
  answered := h.answered
  waiting := by
    intro hwalks n
    constructor
    · rintro ⟨key, owner, hfind⟩
      obtain rfl := h.promise key owner n hfind
      obtain ⟨⟨hpos, hle⟩, hdone⟩ := (h.table n).mp (by rw [hfind]; rfl)
      refine ⟨hpos, hle, fun hanswered => hdone (h.answered n hanswered), fun hterminated => ?_⟩
      rcases h.terminated n hterminated with hin | ⟨w, hw, -⟩
      · exact hdone hin
      · rw [hwalks] at hw
        exact nomatch hw
    · rintro ⟨hpos, hle, hanswered, hterminated⟩
      have hdone : n ∉ s.done := fun hin => (h.settled n hin).elim hanswered hterminated
      obtain ⟨owner, hfind⟩ := h.find_eq ⟨hpos, hle⟩ hdone
      exact ⟨n, owner, hfind⟩

/-! ### Requests and replies -/

/-- The request behind the last one is entered. -/
theorem Walk.Intact.assign {w : Walk} {table : SortedMap Nat (Nat × Nat)} {done : List Nat}
    (h : w.Intact table done) {k : Nat} (hk : table.find k = none) (v : Nat × Nat) :
    w.Intact (table.assign k v) done where
  stands := by
    intro k' hit
    have hstands := h.stands k' hit
    have hne : k' ≠ k := by
      rintro rfl
      rw [hk] at hstands
      contradiction
    rw [SortedMap.find_assign_ne _ _ hne]
    exact hstands
  doomed := by
    intro n hn hdone
    obtain ⟨hfind, hit⟩ := h.doomed n hn hdone
    have hne : n ≠ k := by
      rintro rfl
      rw [hk] at hfind
      contradiction
    rw [SortedMap.find_assign_ne _ _ hne]
    exact ⟨hfind, hit⟩

theorem requestKey_of_toInt {id : Int32} {n : Nat} (h : id.toInt = n) : Manager.requestKey id = n := by
  have hlt := id.toInt_lt
  rw [Manager.requestKey, toInt64_of_toInt h, toNat_ofNat (by omega)]

theorem Net.Sent.mono {s s' : Net H} {n : Nat} (h : s.Sent n)
    (hle : s.requests.length ≤ s'.requests.length) : s'.Sent n := ⟨h.1, h.2.trans hle⟩

theorem inv_send {s : Net H} (h : Inv s) (hid : s.client.id ≠ Int32.maxValue) (method : Key)
    (args : List Any) (owner : Nat) : Inv (s.send method args owner) := by
  have hcounter : (s.client.id + 1).toInt = ((s.requests.length + 1 : Nat) : Int) := by
    rw [toInt_succ hid, h.counter]
    rfl
  have hkey := requestKey_of_toInt hcounter
  have hnone : s.client.replyHandlers.find (s.requests.length + 1) = none := by
    rw [← Option.not_isSome_iff_eq_none, h.table]
    rintro ⟨⟨-, hle⟩, -⟩
    omega
  unfold Net.send Manager.sendRequest
  rw [if_neg hid]
  simp only [hkey]
  exact { h with
    counter := by
      rw [hcounter]
      simp
    requests := by
      intro n message hmessage
      rw [List.getElem?_append] at hmessage
      split_ifs at hmessage with hlt
      · exact h.requests n message hmessage
      · rw [List.getElem?_singleton] at hmessage
        split_ifs at hmessage with hn
        obtain rfl := Option.some.inj hmessage
        have hlast : n = s.requests.length := by omega
        rw [member_eq, lookup_put_self, toInt64_of_toInt hcounter, hlast]
        rfl
    calls := fun call hcall => ⟨(h.calls call hcall).1.mono (by simp), (h.calls call hcall).2⟩
    replies := fun reply hreply =>
      ⟨(h.replies reply hreply).1.mono (by simp), (h.replies reply hreply).2⟩
    promise := by
      intro k owner' p hfind
      by_cases hk : k = s.requests.length + 1
      · rw [hk, SortedMap.find_assign_self] at hfind
        rw [hk, (Prod.mk.inj (Option.some.inj hfind)).2]
      · rw [SortedMap.find_assign_ne _ _ hk] at hfind
        exact h.promise k owner' p hfind
    table := by
      intro n
      by_cases hn : n = s.requests.length + 1
      · rw [hn, SortedMap.find_assign_self]
        refine ⟨fun _ => ⟨⟨by omega, by simp⟩, fun hdone => ?_⟩, fun _ => rfl⟩
        have hle := (h.sent _ hdone).2
        omega
      · rw [SortedMap.find_assign_ne _ _ hn, h.table]
        apply and_congr_left'
        simp only [Net.Sent, List.length_append, List.length_singleton]
        omega
    sent := fun n hn => (h.sent n hn).mono (by simp)
    walks := fun w hw => (h.walks w hw).assign hnone _ }

theorem inv_serve {s s' : Net H} (h : Inv s) (server : Manager H' P') (n : Nat)
    (hleft : ∀ message f, s.requests[n]? = some message → server.preflight = some f →
      member (f message).1 (text "id") = member message (text "id"))
    (hserve : s.serve describe server n = some s') : Inv s' := by
  obtain ⟨message, hmessage, rfl⟩ := Option.map_eq_some_iff.mp hserve
  have hid := h.requests n message hmessage
  have hlt : n < s.requests.length := (List.getElem?_eq_some_iff.mp hmessage).1
  have hsent : s.Sent (n + 1) := ⟨by omega, by omega⟩
  have hlength := h.length_lt
  have hserved := served_dispatch describe server message
  exact { h with
    calls := by
      intro call hcall
      rcases List.mem_append.mp hcall with hcall | hcall
      · exact h.calls call hcall
      · obtain ⟨e, he, hcallOf⟩ := List.mem_filterMap.mp hcall
        cases e with
        | request _ params id =>
          obtain rfl := Option.some.inj hcallOf
          have hnumber : id = toUint32 (member message (text "id")) := hserved _ he
          rw [hid] at hnumber
          exact ⟨hsent, hnumber⟩
        | _ => simp [callOf] at hcallOf
    replies := by
      intro reply hreply
      rcases List.mem_append.mp hreply with hreply | hreply
      · exact h.replies reply hreply
      · obtain ⟨e, he, hreplyOf⟩ := List.mem_filterMap.mp hreply
        cases e with
        | reply r close =>
          obtain rfl := Option.some.inj hreplyOf
          obtain ⟨message', err, hrequest, rfl⟩ := hserved _ he
          have hid' := id_of_request_error hrequest fun f hf => hleft message f hmessage hf
          exact ⟨hsent, isReply_makeErrorReply describe (by omega) (hid'.trans hid) err⟩
        | _ => simp [replyOf] at hreplyOf }

theorem inv_answer {s s' : Net H} (h : Inv s) (j : Nat) {root : Any}
    (hroot : isMember root (text "method") = false) (hanswer : s.answer j root = some s') : Inv s' := by
  obtain ⟨call, hcall, rfl⟩ := Option.map_eq_some_iff.mp hanswer
  obtain ⟨hsent, hnumber⟩ := h.calls call (List.mem_of_getElem? hcall)
  have hlength := h.length_lt
  exact { h with
    replies := by
      intro reply hreply
      rcases List.mem_append.mp hreply with hreply | hreply
      · exact h.replies reply hreply
      · obtain rfl := List.mem_singleton.mp hreply
        refine ⟨hsent, ?_⟩
        rw [hnumber]
        exact isReply_replyWith (by have := hsent.2; omega) hroot }

/-! ### Promises -/

/-- An entry is taken away that the walk does not stand on, and its promise settled. -/
theorem Walk.Intact.erase {w : Walk} {table : SortedMap Nat (Nat × Nat)} {done : List Nat}
    (h : w.Intact table done) {n : Nat} (hit : w.it ≠ some n) :
    w.Intact (table.erase n) (done ++ [n]) where
  stands := by
    intro k hk
    have hne : k ≠ n := by
      rintro rfl
      exact hit hk
    rw [SortedMap.find_erase_ne _ _ hne]
    exact h.stands k hk
  doomed := by
    intro n' hn' hdone
    rw [List.mem_append, not_or, List.mem_singleton] at hdone
    rw [SortedMap.find_erase_ne _ _ hdone.2]
    exact h.doomed n' hn' hdone.1

/-- The promise of a request that waits is settled.  What was answered and what is terminated, and the
walks, are as they come. -/
theorem Inv.settle {s : Net H} (h : Inv s) {n owner : Nat}
    (hfind : s.client.replyHandlers.find n = some (owner, n)) {cause : Cause}
    (hown : ∀ origin, cause = .reply origin → n = origin) {answered terminated : List Nat}
    {walks : List Walk} (hanswered : ∀ n' ∈ answered, n' ∈ s.done ++ [n])
    (hsettled : ∀ n' ∈ s.done ++ [n], n' ∈ answered ∨ n' ∈ terminated)
    (hterminated : ∀ n' ∈ terminated, n' ∈ s.done ++ [n] ∨ ∃ w ∈ walks, n' ∈ w.doomed)
    (hwalks : ∀ w ∈ walks, w.Intact (s.client.replyHandlers.erase n) (s.done ++ [n])) :
    Inv { s with client := { s.client with replyHandlers := s.client.replyHandlers.erase n },
                 settled := s.settled ++ [(n, cause)], answered := answered, terminated := terminated,
                 walks := walks } := by
  obtain ⟨hsent, hdone⟩ := (h.table n).mp (by rw [hfind]; rfl)
  have happend : (s.settled ++ [(n, cause)]).map Prod.fst = s.done ++ [n] := by
    rw [List.map_append]
    rfl
  refine ⟨h.defined, h.counter, h.requests, h.calls, h.replies, ?_, ?_, ?_, ?_, ?_, ?_, ?_, ?_, ?_⟩
  · intro k owner' p hk
    have hne : k ≠ n := by
      rintro rfl
      rw [SortedMap.find_erase_self] at hk
      contradiction
    rw [SortedMap.find_erase_ne _ _ hne] at hk
    exact h.promise k owner' p hk
  · intro n'
    simp only [Net.done, happend]
    by_cases hn : n' = n
    · rw [hn, SortedMap.find_erase_self]
      simp
    · rw [SortedMap.find_erase_ne _ _ hn, h.table, List.mem_append, not_or, List.mem_singleton]
      exact and_congr_right' (and_iff_left hn).symm
  · intro p origin hmem
    rcases List.mem_append.mp hmem with hmem | hmem
    · exact h.own p origin hmem
    · obtain ⟨rfl, hcause⟩ := Prod.mk.inj (List.mem_singleton.mp hmem)
      exact hown origin hcause.symm
  · simp only [Net.done, happend]
    exact List.nodup_append.mpr ⟨h.once, List.nodup_singleton n, fun a ha b hb => by
      rw [List.mem_singleton.mp hb]
      rintro rfl
      exact hdone ha⟩
  · simp only [Net.done, happend]
    intro n' hn'
    rcases List.mem_append.mp hn' with hn' | hn'
    · exact h.sent n' hn'
    · rw [List.mem_singleton.mp hn']
      exact hsent
  · simp only [Net.done, happend]
    exact hanswered
  · simp only [Net.done, happend]
    exact hsettled
  · simp only [Net.done, happend]
    exact hterminated
  · simp only [Net.done, happend]
    exact hwalks

/-- A reply finds its promise, or none. -/
theorem dispatch_of_isReply (client : Manager H Nat) {message : Any} {n : Nat} (h : IsReply message n) :
    client.dispatch describe message = client.reply message ∧
      client.waiting message = (client.replyHandlers.find n).map fun entry => (n, entry.2) := by
  constructor
  · simp [Manager.dispatch, h.valid, h.method]
  · rw [Manager.waiting, h.key]
    rfl

theorem inv_deliver {s s' : Net H} (h : Inv s) (j : Nat)
    (hfree : ∀ reply key, s.replies[j]? = some reply → Manager.replyKey reply.2 = some key →
      ∀ w ∈ s.walks, w.it ≠ some key)
    (hdeliver : s.deliver describe j = some s') : Inv s' := by
  obtain ⟨⟨n, message⟩, hreply, rfl⟩ := Option.map_eq_some_iff.mp hdeliver
  obtain ⟨hsent, hisReply⟩ := h.replies _ (List.mem_of_getElem? hreply)
  simp only at hsent hisReply
  obtain ⟨hdispatch, hwaiting⟩ := dispatch_of_isReply describe s.client hisReply
  rw [hdispatch, Manager.reply, hwaiting]
  by_cases hdone : n ∈ s.done
  · -- the reply is a duplicate, or comes too late
    have hnone : s.client.replyHandlers.find n = none := by
      rw [← Option.not_isSome_iff_eq_none, h.table]
      exact fun hwaits => hwaits.2 hdone
    rw [hnone]
    simp only [Option.map_none, List.filterMap_nil, List.append_nil]
    exact { h with
      answered := by
        intro n' hn'
        rcases List.mem_append.mp hn' with hn' | hn'
        · exact h.answered n' hn'
        · rw [List.mem_singleton.mp hn']
          exact hdone
      settled := fun n' hn' => (h.settled n' hn').imp_left (List.mem_append_left _) }
  · obtain ⟨owner, hfind⟩ := h.find_eq hsent hdone
    rw [hfind]
    have hsettled : settledBy n (s.client.settlement message n) = some (n, .reply n) := by
      unfold Manager.settlement
      split <;> rfl
    simp only [Option.map_some, List.filterMap_cons_some hsettled, List.filterMap_nil]
    apply h.settle hfind
    · exact fun origin heq => Cause.reply.inj heq
    · intro n' hn'
      rcases List.mem_append.mp hn' with hn' | hn'
      · exact List.mem_append_left _ (h.answered n' hn')
      · exact List.mem_append_right _ hn'
    · intro n' hn'
      rcases List.mem_append.mp hn' with hn' | hn'
      · exact (h.settled n' hn').imp_left (List.mem_append_left _)
      · exact .inl (List.mem_append_right _ hn')
    · exact fun n' hn' => (h.terminated n' hn').imp_left (List.mem_append_left _)
    · exact fun w hw => (h.walks w hw).erase (hfree (n, message) n hreply hisReply.key w hw)

/-! ### Walks -/

theorem mem_doomed {s : Net H} (h : Inv s) {owner n : Nat}
    (hn : n ∈ (s.client.replyHandlers.entries.filter fun e => decide (e.2.1 = owner)).map fun e => e.2.2) :
    s.client.replyHandlers.find n = some (owner, n) := by
  obtain ⟨⟨k, owner', p⟩, he, rfl⟩ := List.mem_map.mp hn
  obtain ⟨hentry, howner⟩ := List.mem_filter.mp he
  rw [← SortedMap.find_eq_some_iff] at hentry
  obtain rfl := h.promise k owner' p hentry
  rw [hentry]
  simpa using howner

/-- A walk starts at the first entry, in front of all that it has to terminate. -/
theorem Walk.Intact.start {table : SortedMap Nat (Nat × Nat)} {owner : Nat} {doomed done : List Nat}
    (hdoomed : ∀ n ∈ doomed, table.find n = some (owner, n)) :
    Walk.Intact ⟨owner, table.first, doomed⟩ table done where
  stands := by
    intro k hk
    obtain ⟨⟨k', v⟩, hfirst, rfl⟩ := Option.map_eq_some_iff.mp hk
    rw [(SortedMap.firstWhere_eq_some hfirst).1]
    rfl
  doomed := by
    intro n hn _
    have hfind := hdoomed n hn
    refine ⟨hfind, ?_⟩
    cases hfirst : table.firstWhere fun _ => true with
    | none => exact absurd (SortedMap.firstWhere_eq_none hfirst hfind) (by simp)
    | some e =>
      obtain ⟨k, v⟩ := e
      refine ⟨k, ?_, (SortedMap.firstWhere_eq_some hfirst).2.2 n _ hfind rfl⟩
      simp only [SortedMap.first, hfirst]
      rfl

theorem inv_terminate {s : Net H} (h : Inv s) (owner : Nat) : Inv (s.terminate owner) :=
  { h with
    settled := fun n hn => (h.settled n hn).imp_right (List.mem_append_left _)
    terminated := by
      intro n hn
      rcases List.mem_append.mp hn with hn | hn
      · rcases h.terminated n hn with hdone | ⟨w, hw, hdoomed⟩
        · exact .inl hdone
        · exact .inr ⟨w, List.mem_cons_of_mem _ hw, hdoomed⟩
      · exact .inr ⟨_, List.mem_cons_self, hn⟩
    walks := by
      intro w hw
      rcases List.mem_cons.mp hw with rfl | hw
      · exact .start fun n hn => mem_doomed h hn
      · exact h.walks w hw }

/-- A walk goes on behind the entry that it took away. -/
theorem Walk.Intact.resume {w : Walk} {table : SortedMap Nat (Nat × Nat)} {done : List Nat}
    (h : w.Intact table done) {k : Nat} {v : Nat × Nat} (htarget : w.target table = some (k, v)) :
    Walk.Intact { w with it := (table.erase k).next k } (table.erase k) (done ++ [k]) := by
  obtain ⟨k₀, hit, hfirst⟩ := Option.bind_eq_some_iff.mp htarget
  obtain ⟨hfind, hp, hmin⟩ := SortedMap.firstWhere_eq_some hfirst
  refine ⟨fun k' hk' => ?_, fun n hn hdone => ?_⟩
  · obtain ⟨⟨k'', v'⟩, hnext, rfl⟩ := Option.map_eq_some_iff.mp hk'
    rw [(SortedMap.firstWhere_eq_some hnext).1]
    rfl
  · rw [List.mem_append, not_or, List.mem_singleton] at hdone
    obtain ⟨hn, k₁, hit₁, hle⟩ := h.doomed n hn hdone.1
    obtain rfl := Option.some.inj (hit.symm.trans hit₁)
    have hlt : k < n := by
      have hkn := hmin n _ hn (by simp [hle])
      have hne := hdone.2
      omega
    have hn' : (table.erase k).find n = some (w.owner, n) := by
      rw [SortedMap.find_erase_ne _ _ hdone.2]
      exact hn
    refine ⟨hn', ?_⟩
    cases hnext : (table.erase k).firstWhere fun e => decide (k < e.1) with
    | none => exact absurd (SortedMap.firstWhere_eq_none hnext hn') (by simpa using hlt)
    | some e =>
      obtain ⟨k', v'⟩ := e
      refine ⟨k', ?_, (SortedMap.firstWhere_eq_some hnext).2.2 n _ hn' (by simpa using hlt)⟩
      simp only [SortedMap.next, hnext]
      rfl

/-- A walk that finds no entry of the owner any more has terminated all it had to. -/
theorem Walk.Intact.all_done {w : Walk} {table : SortedMap Nat (Nat × Nat)} {done : List Nat}
    (h : w.Intact table done) (htarget : w.target table = none) {n : Nat} (hn : n ∈ w.doomed) :
    n ∈ done := by
  by_contra hdone
  obtain ⟨hfind, k, hit, hle⟩ := h.doomed n hn hdone
  rw [Walk.target, hit] at htarget
  exact absurd (SortedMap.firstWhere_eq_none htarget hfind) (by simp [hle])

theorem Walk.Intact.defined {w : Walk} {table : SortedMap Nat (Nat × Nat)} {done : List Nat}
    (h : w.Intact table done) : (w.it.any fun k => (table.find k).isNone) = false := by
  cases hit : w.it with
  | none => rfl
  | some k =>
    have hk := h.stands k hit
    rw [Option.any_some, Option.isNone_eq_false_iff]
    exact hk

theorem inv_resume {s s' : Net H} (h : Inv s)
    (hfree : ∀ w walks e, s.walks = w :: walks → w.target s.client.replyHandlers = some e →
      ∀ w' ∈ walks, w'.it ≠ some e.1)
    (hresume : s.resume = some s') : Inv s' := by
  unfold Net.resume at hresume
  split at hresume
  · contradiction
  · rename_i w walks hwalks
    have hintact := h.walks w (by rw [hwalks]; exact List.mem_cons_self)
    have hrest : ∀ w' ∈ walks, w'.Intact s.client.replyHandlers s.done :=
      fun w' hw' => h.walks w' (by rw [hwalks]; exact List.mem_cons_of_mem w hw')
    rw [hintact.defined] at hresume
    simp only [Bool.false_eq_true, if_false] at hresume
    cases htarget : w.target s.client.replyHandlers with
    | none =>
      rw [htarget] at hresume
      obtain rfl := Option.some.inj hresume
      exact { h with
        terminated := by
          intro n hn
          rcases h.terminated n hn with hdone | ⟨w', hw', hdoomed⟩
          · exact .inl hdone
          · rw [hwalks] at hw'
            rcases List.mem_cons.mp hw' with rfl | hw'
            · exact .inl (hintact.all_done htarget hdoomed)
            · exact .inr ⟨w', hw', hdoomed⟩
        walks := hrest }
    | some e =>
      obtain ⟨k, owner, p⟩ := e
      rw [htarget] at hresume
      obtain rfl := Option.some.inj hresume
      obtain ⟨k₀, -, hfirst⟩ := Option.bind_eq_some_iff.mp htarget
      obtain ⟨hfind, -, -⟩ := SortedMap.firstWhere_eq_some hfirst
      obtain rfl := h.promise k owner p hfind
      apply h.settle hfind
      · exact fun origin heq => nomatch heq
      · exact fun n hn => List.mem_append_left _ (h.answered n hn)
      · intro n hn
        rcases List.mem_append.mp hn with hn | hn
        · exact (h.settled n hn).imp_right (List.mem_append_left _)
        · exact .inr (List.mem_append_right _ hn)
      · intro n hn
        rcases List.mem_append.mp hn with hn | hn
        · rcases h.terminated n hn with hdone | ⟨w', hw', hdoomed⟩
          · exact .inl (List.mem_append_left _ hdone)
          · rw [hwalks] at hw'
            rcases List.mem_cons.mp hw' with rfl | hw'
            · exact .inr ⟨_, List.mem_cons_self, hdoomed⟩
            · exact .inr ⟨w', List.mem_cons_of_mem _ hw', hdoomed⟩
        · exact .inl (List.mem_append_right _ hn)
      · intro w' hw'
        rcases List.mem_cons.mp hw' with rfl | hw'
        · exact hintact.resume htarget
        · exact (hrest w' hw').erase (hfree w walks _ hwalks htarget w' hw')

theorem inv_step (s : Net H) (a : Act H' P') (s' : Net H) (h : Inv s) (hallowed : Allowed s a)
    (hstep : step describe s a = some s') : Inv s' := by
  unfold step at hstep
  rw [h.defined] at hstep
  simp only [Bool.false_eq_true, if_false] at hstep
  cases a with
  | send method args owner =>
    obtain rfl := Option.some.inj hstep
    exact inv_send h hallowed method args owner
  | serve server n => exact inv_serve describe h server n hallowed hstep
  | answer j root => exact inv_answer h j hallowed hstep
  | deliver j => exact inv_deliver describe h j hallowed hstep
  | terminate owner =>
    obtain rfl := Option.some.inj hstep
    exact inv_terminate h owner
  | resume => exact inv_resume h hallowed hstep

/-- In whatever order messages are delivered, and whatever is done when a promise is settled: as long
as the steps are allowed, replies and promises belong together. -/
theorem requests_correlated (client : Manager H Nat) (as : List (Act H' P')) (s : Net H)
    (hallowed : Meets (step describe) Allowed (Net.create client) as)
    (hrun : run (step describe) (Net.create client) as = some s) : Correlated s :=
  (invariant_of_meets (inv_step describe) hallowed hrun (inv_create client)).correlated

/-- A manager without handlers. -/
def idle : Manager Unit Nat := ⟨none, none, [], [], .empty, 0⟩

/-- A server with one handler, for the method `m`. -/
def obliging : Manager Unit Unit := ⟨none, none, [], [(text "m", 0, ())], .empty, 0⟩

/-- The second request is answered twice, the first and the third are terminated. -/
def threeRequests : List (Act Unit Unit) :=
  [.send (text "m") [] 7, .send (text "m") [] 8, .send (text "x") [] 7, .serve obliging 1,
    .answer 0 (.object [(text "result", .null)]), .deliver 0, .deliver 0, .terminate 7, .resume, .resume,
    .resume]

theorem threeRequests_allowed :
    Meets (step fun _ _ => []) Allowed (Net.create idle) threeRequests := by
  have hsend : ∀ id : Int32, decide (id = Int32.maxValue) = false → id ≠ Int32.maxValue :=
    fun id h => of_decide_eq_false h
  have halone : ∀ (s : Net Unit) (w : Walk), s.walks = [w] → Allowed s (.resume : Act Unit Unit) := by
    intro s w hw w₁ walks e hwalks _ w' hw'
    rw [hw] at hwalks
    rw [← (List.cons.inj hwalks).2] at hw'
    exact nomatch hw'
  refine meets_cons rfl (hsend _ rfl) ?_
  refine meets_cons rfl (hsend _ rfl) ?_
  refine meets_cons rfl (hsend _ rfl) ?_
  refine meets_cons rfl (fun _ _ _ hf => nomatch hf) ?_
  refine meets_cons rfl rfl ?_
  refine meets_cons rfl (fun _ _ _ _ _ hw => nomatch hw) ?_
  refine meets_cons rfl (fun _ _ _ _ _ hw => nomatch hw) ?_
  refine meets_cons rfl trivial ?_
  refine meets_cons rfl (halone _ _ rfl) ?_
  refine meets_cons rfl (halone _ _ rfl) ?_
  refine meets_cons rfl (halone _ _ rfl) ?_
  trivial

theorem threeRequests_correlated :
    ∃ s, run (step fun _ _ => []) (Net.create idle) threeRequests = some s ∧
      s.settled = [(2, .reply 2), (1, .interrupted), (3, .interrupted)] ∧ Correlated s :=
  ⟨_, rfl, rfl, requests_correlated (fun _ _ => []) idle threeRequests _ threeRequests_allowed rfl⟩

/-- Two requests are terminated, and the callback of the first promise terminates them, too. -/
def nestedTerminate : List (Act Unit Unit) :=
  [.send (text "m") [] 7, .send (text "m") [] 7, .terminate 7, .resume, .terminate 7, .resume, .resume,
    .resume]

theorem nestedTerminate_undefined :
    ∃ s, run (step fun _ _ => []) (Net.create idle) nestedTerminate = some s ∧ ¬Correlated s := by
  refine ⟨_, rfl, fun h => ?_⟩
  exact absurd h.defined (by decide)

end Nodeoze.Rpc
