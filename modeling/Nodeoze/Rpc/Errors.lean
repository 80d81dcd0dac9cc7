import Nodeoze.Rpc.Manager

/-!
# Errors on the wire

The error of a request is nested twice in the reply of the server: `make_error` puts an object with a
member `error` under the member `error`.  The client looks for the code one level higher, finds
nothing there and takes every error for an internal one.
-/

namespace Nodeoze.Rpc

open Any (text member toUint64)

variable (describe : Nat → Int32 → Key) {H P H' P' : Type}

theorem isMember_of_member {x v : Any} {k : Key} (h : member x k = v) (hv : v ≠ .null) :
    isMember x k = true := by
  subst h
  cases x with
  | object ms =>
    rw [isMember]
    cases hlookup : ms.lookup k with
    | none => simp [member, hlookup] at hv
    | some v => rfl
  | _ => simp [member] at hv

theorem replyKey_of_waiting {m : Manager H P} {message : Any} {key : Nat} {p : P}
    (h : m.waiting message = some (key, p)) : Manager.replyKey message = some key := by
  obtain ⟨key', hkey, hfind⟩ := Option.bind_eq_some_iff.mp h
  obtain ⟨entry, -, hentry⟩ := Option.map_eq_some_iff.mp hfind
  rw [hkey, (Prod.mk.inj hentry).1]

/-! ## The reply of the server -/

theorem makeError_eq (err : ErrorCode) :
    ∃ error, makeError describe err = .object [(text "error", error)] := by
  unfold makeError
  split_ifs <;> exact ⟨_, rfl⟩

theorem validate_makeErrorReply (in_ : Any) (err : ErrorCode) :
    validate (makeErrorReply describe in_ err)
      = if isInteger (member in_ (text "id")) then none else some invalidRequest := by
  cases hinteger : isInteger (member in_ (text "id")) with
  | true =>
    have hid : isInteger (member (makeErrorReply describe in_ err) (text "id")) = true := hinteger
    rw [validate, hid]
    rfl
  | false =>
    have hid : isInteger (member (makeErrorReply describe in_ err) (text "id")) = false := hinteger
    rw [validate, hid]
    rfl

/-- There is no code where the client looks for it. -/
theorem replyError_makeErrorReply (client : Manager H P) (in_ : Any) (err : ErrorCode) :
    client.replyError (makeErrorReply describe in_ err) = some (makeErrorCode .internalError) := by
  obtain ⟨error, herror⟩ := makeError_eq describe err
  have hmember : member (makeErrorReply describe in_ err) (text "error") = .object [(text "error", error)] :=
    herror
  rw [Manager.replyError, hmember]
  rfl

/-- The promise that waits for the reply is rejected, with an internal error. -/
theorem dispatch_makeErrorReply (client : Manager H P) (in_ : Any) (err : ErrorCode) :
    client.dispatch describe (makeErrorReply describe in_ err)
      = match client.waiting in_ with
        | none => (client, [])
        | some (key, p) =>
          ({ client with replyHandlers := client.replyHandlers.erase key },
            [.reject p (makeErrorCode .internalError)]) := by
  have hmethod : isMember (makeErrorReply describe in_ err) (text "method") = false := rfl
  rw [Manager.dispatch, validate_makeErrorReply]
  cases hinteger : isInteger (member in_ (text "id")) with
  | true =>
    have hwaiting : client.waiting (makeErrorReply describe in_ err) = client.waiting in_ := rfl
    have hsettlement : ∀ p, client.settlement (makeErrorReply describe in_ err) p
        = .reject p (makeErrorCode .internalError) := by
      intro p
      rw [Manager.settlement, replyError_makeErrorReply]
    rw [if_pos rfl]
    simp only [hmethod, Bool.false_eq_true, if_false]
    rw [Manager.reply, hwaiting]
    cases client.waiting in_ with
    | none => rfl
    | some entry =>
      obtain ⟨key, p⟩ := entry
      simp only [hsettlement]
  | false =>
    have hkey : Manager.replyKey in_ = none := by
      unfold Manager.replyKey
      split
      · rename_i i hi
        rw [hi] at hinteger
        contradiction
      · rfl
    rw [Manager.waiting, hkey]
    rfl

theorem request_error {server : Manager H P} {message message' : Any} {err : ErrorCode}
    (h : server.request message = .error (message', err)) :
    message' = (server.preflighted message).1 ∧
      (err = makeErrorCode .invalidParams ∨ err = makeErrorCode .methodNotFound ∨
        err = (server.preflighted message).2 ∧ err.value ≠ 0) := by
  unfold Manager.request at h
  simp only at h
  split_ifs at h with hzero
  · split at h
    · split_ifs at h
      obtain ⟨hmessage, herr⟩ := Prod.mk.inj (Except.error.inj h)
      exact ⟨hmessage.symm, .inl herr.symm⟩
    · obtain ⟨hmessage, herr⟩ := Prod.mk.inj (Except.error.inj h)
      exact ⟨hmessage.symm, .inr (.inl herr.symm)⟩
  · obtain ⟨hmessage, herr⟩ := Prod.mk.inj (Except.error.inj h)
    rw [← herr]
    exact ⟨hmessage.symm, .inr (.inr ⟨rfl, hzero⟩)⟩

/-- What the preflight handler rejects is answered with its error. -/
theorem request_of_preflighted {server : Manager H P} {message : Any}
    (herr : (server.preflighted message).2.value ≠ 0) :
    server.request message = .error (server.preflighted message) := by
  unfold Manager.request
  simp only [herr, if_false]

/-- An internal error is the one of the preflight handler. -/
theorem preflight_of_internalError {server : Manager H P} {message message' : Any}
    (h : server.request message = .error (message', makeErrorCode .internalError)) :
    ∃ f, server.preflight = some f ∧ f message = (message', makeErrorCode .internalError) := by
  obtain ⟨hmessage, hparams | hmethod | ⟨hinternal, -⟩⟩ := request_error h
  · exact absurd hparams (by decide)
  · exact absurd hmethod (by decide)
  · cases hpreflight : server.preflight with
    | none =>
      rw [Manager.preflighted, hpreflight] at hinternal
      have hvalue : Errc.internalError.value = 0 := congrArg ErrorCode.value hinternal
      exact absurd hvalue (by decide)
    | some f =>
      have hf : server.preflighted message = f message := by rw [Manager.preflighted, hpreflight]
      rw [hf] at hinternal hmessage
      exact ⟨f, rfl, Prod.ext hmessage.symm hinternal.symm⟩

/-- A request is answered with an error: the waiting promise is rejected with it where the preflight
handler has given an internal error, and has left an id that is read as the key of the request. -/
theorem error_survives_iff (server : Manager H' P') (client : Manager H P) (message : Any) (i : Int64)
    (hvalid : validate message = none) (hmethod : isMember message (text "method") = true)
    (hid : member message (text "id") = .integer i) (message' : Any) (err : ErrorCode)
    (herror : server.request message = .error (message', err)) (owner : Nat) (p : P)
    (hwaits : client.replyHandlers.find i.toUInt64.toNat = some (owner, p)) :
    (server.dispatch describe message).2 = [.reply (makeErrorReply describe message' err) false] ∧
      (client.dispatch describe (makeErrorReply describe message' err)
          = ({ client with replyHandlers := client.replyHandlers.erase i.toUInt64.toNat },
              [.reject p err]) ↔
        ∃ f, server.preflight = some f ∧ (f message).2 = makeErrorCode .internalError ∧
          Manager.replyKey (f message).1 = some i.toUInt64.toNat) := by
  refine ⟨?_, ?_⟩
  · have hmember : isMember message (text "id") = true := isMember_of_member hid (by simp)
    simp only [Manager.dispatch, hvalid, hmethod, hmember, if_true, herror]
  · rw [dispatch_makeErrorReply]
    constructor
    · intro hreject
      cases hwaiting : client.waiting message' with
      | none =>
        rw [hwaiting] at hreject
        exact absurd (congrArg Prod.snd hreject) (by simp)
      | some entry =>
        obtain ⟨key, p'⟩ := entry
        rw [hwaiting] at hreject
        obtain ⟨hmanager, heffect⟩ := Prod.mk.inj hreject
        obtain ⟨rfl, rfl⟩ := Effect.reject.inj (List.cons.inj heffect).1
        -- the entry of the request is the one that is gone
        have hkey : key = i.toUInt64.toNat :=
          SortedMap.eq_of_erase_eq _ _ hwaits (congrArg Manager.replyHandlers hmanager)
        obtain ⟨f, hf, hpair⟩ := preflight_of_internalError herror
        refine ⟨f, hf, by rw [hpair], ?_⟩
        rw [hpair, replyKey_of_waiting hwaiting, hkey]
    · rintro ⟨f, hf, hinternal, hkey⟩
      have hpreflighted : server.preflighted message = f message := by rw [Manager.preflighted, hf]
      have hset : (server.preflighted message).2.value ≠ 0 := by
        rw [hpreflighted, hinternal]
        decide
      have hrequest := request_of_preflighted hset
      rw [herror, hpreflighted] at hrequest
      have hpair := Except.error.inj hrequest
      rw [← hpair] at hinternal hkey
      obtain rfl : err = makeErrorCode .internalError := hinternal
      simp only [Manager.waiting, hkey, Option.bind_some, hwaits, Option.map_some]

/-- A request with the id `1`. -/
def call : Any :=
  .object [(text "jsonrpc", .string (text "2.0")), (text "method", .string (text "m")),
    (text "params", .array []), (text "id", .integer 1)]

/-- A server without handlers. -/
def bare (preflight : Option (Any → Any × ErrorCode)) : Manager Unit Unit :=
  ⟨none, preflight, [], [], .empty, 0⟩

/-- A client that waits for the reply to its first request. -/
def asking : Manager Unit Unit := ⟨none, none, [], [], SortedMap.empty.assign 1 (0, ()), 1⟩

/-- A server that rejects every request as an internal error. -/
theorem internalError_survives :
    asking.dispatch (fun _ _ => []) (makeErrorReply (fun _ _ => []) call (makeErrorCode .internalError))
      = ({ asking with replyHandlers := asking.replyHandlers.erase 1 },
          [.reject () (makeErrorCode .internalError)]) :=
  ((error_survives_iff (fun _ _ => []) (bare (some fun m => (m, makeErrorCode .internalError))) asking call 1
    rfl rfl rfl call (makeErrorCode .internalError) rfl 0 () rfl).2).mpr ⟨_, rfl, rfl, rfl⟩

/-- The method of a request is not bound, and the client hears of an internal error. -/
theorem methodNotFound_lost :
    (bare none).request call = .error (call, makeErrorCode .methodNotFound) ∧
      ((bare none).dispatch (fun _ _ => []) call).2
        = [.reply (makeErrorReply (fun _ _ => []) call (makeErrorCode .methodNotFound)) false] ∧
      asking.replyHandlers.find 1 = some (0, ()) ∧
      (asking.dispatch (fun _ _ => [])
          (makeErrorReply (fun _ _ => []) call (makeErrorCode .methodNotFound))).2
        = [.reject () (makeErrorCode .internalError)] ∧
      makeErrorCode .internalError ≠ makeErrorCode .methodNotFound :=
  ⟨rfl, rfl, rfl, rfl, by decide⟩

end Nodeoze.Rpc
