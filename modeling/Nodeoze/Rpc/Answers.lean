import Nodeoze.Rpc.Errors

/-!
# Answers to requests

`dispatch` answers a request with an error, or hands a closure to the handler that is bound to its
method.  The closure keeps the id of the request in 32 bits.  The error that `validate` makes of a
message it rejects is dropped.
-/

namespace Nodeoze.Rpc

open Any (text member toUint64)

variable (describe : Nat → Int32 → Key) {H P : Type}

def isErrorDocument (document : Any) : Bool := isMember document (text "error")

def isRequest (message : Any) : Bool := isMember message (text "method") && isMember message (text "id")

def isNotification (message : Any) : Bool :=
  isMember message (text "method") && !isMember message (text "id")

def Manager.handler (m : Manager H P) (message : Any) : Option (Nat × H) :=
  m.requestHandlers.lookup (toText (member message (text "method")))

/-- The preflight handler lets the message pass, and the handler of its method takes as many parameters
as it has. -/
def Manager.Takes (m : Manager H P) (message : Any) (h : H) : Prop :=
  (m.preflighted message).2.value = 0 ∧
    m.handler message = some (size (member (m.preflighted message).1 (text "params")), h)

/-- The answer that is owed to a message. -/
structure Answered (m : Manager H P) (message : Any) (effects : List (Effect H P)) : Prop where
  rejected : ∀ error, validate message = some error → ∃ close, effects = [.reply error close]
  request : validate message = none → isRequest message = true →
    (∃ document close, effects = [.reply document close] ∧ isErrorDocument document = true) ∨
      ∃ n h params id, m.handler message = some (n, h) ∧ effects = [.request h params id] ∧
        ∀ root, member (replyWith id root) (text "id") = member message (text "id")
  notification : validate message = none → isNotification message = true →
    ∀ document close, Effect.reply document close ∉ effects

/-! ## The id in the closure -/

/-- The id comes back from 32 bits where it fits into them. -/
theorem toUint32_keeps_iff (i : Int64) :
    (toUint32 (.integer i)).toUInt64.toInt64 = i ↔ 0 ≤ i.toInt ∧ i.toInt < 2 ^ 32 := by
  have hint : i.toInt = if 2 * i.toUInt64.toNat < 2 ^ 64 then (i.toUInt64.toNat : Int)
      else (i.toUInt64.toNat : Int) - 2 ^ 64 := BitVec.toInt_eq_toNat_cond i.toBitVec
  have hlt := i.toUInt64.toNat_lt
  have hnat : (toUint32 (.integer i)).toUInt64.toNat = i.toUInt64.toNat % 2 ^ 32 := by simp [toUint32]
  have hkeeps : (toUint32 (.integer i)).toUInt64.toInt64 = i ↔
      i.toUInt64.toNat % 2 ^ 32 = i.toUInt64.toNat := by
    constructor
    · intro h
      rw [← hnat]
      exact congrArg (fun j : Int64 => j.toUInt64.toNat) h
    · intro h
      have hword : (toUint32 (.integer i)).toUInt64 = i.toUInt64 := UInt64.toNat_inj.mp (hnat.trans h)
      rw [hword]
      rfl
  rw [hkeeps]
  split at hint <;> omega

theorem member_replyWith (id : UInt32) (root : Any) :
    member (replyWith id root) (text "id") = .integer id.toUInt64.toInt64 := by
  rw [member_eq, replyWith, lookup_put_self]
  rfl

theorem replyWith_keeps_iff (i : Int64) :
    (∀ root, member (replyWith (toUint32 (.integer i)) root) (text "id") = .integer i) ↔
      0 ≤ i.toInt ∧ i.toInt < 2 ^ 32 := by
  rw [← toUint32_keeps_iff]
  constructor
  · intro h
    have hnull := h .null
    rw [member_replyWith] at hnull
    exact Any.integer.inj hnull
  · intro h root
    rw [member_replyWith, h]

/-! ## What a request comes to -/

theorem isErrorDocument_makeErrorReply (in_ : Any) (err : ErrorCode) :
    isErrorDocument (makeErrorReply describe in_ err) = true := rfl

theorem integer_of_valid {message : Any} (hvalid : validate message = none)
    (hid : isMember message (text "id") = true) : ∃ i, member message (text "id") = .integer i := by
  unfold validate at hvalid
  split_ifs at hvalid with h₁ h₂ h₃ h₄
  rw [hid, Bool.true_and, Bool.not_eq_true, Bool.not_eq_false'] at h₃
  cases hmember : member message (text "id") with
  | integer i => exact ⟨i, rfl⟩
  | _ =>
    rw [hmember] at h₃
    contradiction

theorem request_ok_iff (m : Manager H P) (message : Any) (h : H) (params : Any) :
    m.request message = .ok (h, params) ↔
      m.Takes message h ∧ params = member (m.preflighted message).1 (text "params") := by
  unfold Manager.request Manager.Takes Manager.handler
  constructor
  · intro hrequest
    simp only at hrequest
    split_ifs at hrequest with herr
    split at hrequest
    · rename_i numParams h' hlookup
      split_ifs at hrequest with hsize
      obtain ⟨rfl, rfl⟩ := Prod.mk.inj (Except.ok.inj hrequest)
      rw [hlookup, hsize]
      exact ⟨⟨herr, rfl⟩, rfl⟩
    · cases hrequest
  · rintro ⟨⟨herr, hlookup⟩, rfl⟩
    simp only [herr, hlookup, if_true]

/-- A request has one effect: an error, or a call of the handler. -/
theorem dispatch_request (m : Manager H P) {message : Any} {i : Int64} (hvalid : validate message = none)
    (hrequest : isRequest message = true) (hid : member message (text "id") = .integer i) :
    (∃ in_ err, (m.dispatch describe message).2 = [.reply (makeErrorReply describe in_ err) false] ∧
        ∀ h, ¬m.Takes message h) ∨
      ∃ h params, m.Takes message h ∧
        (m.dispatch describe message).2 = [.request h params (toUint32 (.integer i))] := by
  rw [isRequest, Bool.and_eq_true] at hrequest
  simp only [Manager.dispatch, hvalid, hrequest.1, hrequest.2, if_true]
  cases hresult : m.request message with
  | error failure =>
    left
    refine ⟨failure.1, failure.2, rfl, fun h htakes => ?_⟩
    have hok := (request_ok_iff m message h _).mpr ⟨htakes, rfl⟩
    rw [hresult] at hok
    cases hok
  | ok call =>
    right
    refine ⟨call.1, call.2, ((request_ok_iff m message call.1 call.2).mp hresult).1, ?_⟩
    rw [hid]

theorem dispatch_notification (m : Manager H P) {message : Any} (hvalid : validate message = none)
    (hnotification : isNotification message = true) (document : Any) (close : Bool) :
    Effect.reply document close ∉ (m.dispatch describe message).2 := by
  rw [isNotification, Bool.and_eq_true, Bool.not_eq_true'] at hnotification
  simp only [Manager.dispatch, hvalid, hnotification.1, hnotification.2, if_true, Bool.false_eq_true, if_false]
  cases m.notificationHandlers.lookup (toText (member message (text "method"))) with
  | none => simp
  | some entry =>
    obtain ⟨numParams, h⟩ := entry
    simp only
    split_ifs <;> simp

theorem dispatch_rejected (m : Manager H P) {message error : Any} (h : validate message = some error) :
    (m.dispatch describe message).2 = [] := by
  simp only [Manager.dispatch, h]

/-! ## Every request is answered -/

/-- A message gets the answer it is owed if and only if it is valid and, where a handler takes it, its id
fits into 32 bits. -/
theorem answered_iff (m : Manager H P) (message : Any) :
    Answered m message (m.dispatch describe message).2 ↔
      validate message = none ∧
        (isRequest message = true → (∃ h, m.Takes message h) →
          ∀ i, member message (text "id") = .integer i → 0 ≤ i.toInt ∧ i.toInt < 2 ^ 32) := by
  constructor
  · intro hanswered
    have hvalid : validate message = none := by
      cases hvalidate : validate message with
      | none => rfl
      | some error =>
        obtain ⟨close, heffects⟩ := hanswered.rejected error hvalidate
        rw [dispatch_rejected describe m hvalidate] at heffects
        cases heffects
    refine ⟨hvalid, ?_⟩
    rintro hrequest ⟨h, htakes⟩ i hid
    rcases dispatch_request describe m hvalid hrequest hid with ⟨-, -, -, hnone⟩ | ⟨h', params, -, hcall⟩
    · exact absurd htakes (hnone h)
    · rcases hanswered.request hvalid hrequest with ⟨document, close, heffects, -⟩ | hreplies
      · rw [hcall] at heffects
        cases heffects
      · obtain ⟨n, h'', params', id, -, heffects, hreply⟩ := hreplies
        rw [hcall] at heffects
        obtain ⟨-, -, rfl⟩ := Effect.request.inj (List.cons.inj heffects).1
        rw [hid] at hreply
        exact (replyWith_keeps_iff i).mp hreply
  · rintro ⟨hvalid, hfits⟩
    refine ⟨fun error herror => ?_, fun _ hrequest => ?_, fun _ => dispatch_notification describe m hvalid⟩
    · rw [hvalid] at herror
      cases herror
    · have hmember : isMember message (text "id") = true := (Bool.and_eq_true _ _ ▸ hrequest).2
      obtain ⟨i, hid⟩ := integer_of_valid hvalid hmember
      rcases dispatch_request describe m hvalid hrequest hid with
        ⟨in_, err, heffects, -⟩ | ⟨h, params, htakes, heffects⟩
      · left
        exact ⟨_, false, heffects, isErrorDocument_makeErrorReply describe in_ err⟩
      · right
        refine ⟨_, h, params, _, htakes.2, heffects, ?_⟩
        rw [hid]
        exact (replyWith_keeps_iff i).mpr (hfits hrequest ⟨h, htakes⟩ i hid)

/-- A server with a handler for `m`, which has no parameters. -/
def serving : Manager Unit Unit := ⟨none, none, [], [(text "m", 0, ())], .empty, 0⟩

/-- A request with the id 2^32. -/
def farCall : Any :=
  .object [(text "jsonrpc", .string (text "2.0")), (text "method", .string (text "m")),
    (text "params", .array []), (text "id", .integer 4294967296)]

/-- The error for the empty object is dropped, and the reply to a request with the id 2^32 carries the
id 0. -/
theorem answers_lost :
    validate (.object []) = some invalidRequest ∧
      (serving.dispatch (fun _ _ => []) (.object [])).2 = [] ∧
      ¬Answered serving (.object []) (serving.dispatch (fun _ _ => []) (.object [])).2 ∧
      (serving.dispatch (fun _ _ => []) farCall).2 = [.request () (.array []) 0] ∧
      member (replyWith 0 .null) (text "id") = .integer 0 := by
  have hvalidate : validate (.object []) = some invalidRequest := rfl
  have hnone : (serving.dispatch (fun _ _ => []) (.object [])).2 = [] :=
    dispatch_rejected (fun _ _ => []) serving hvalidate
  refine ⟨hvalidate, hnone, fun hanswered => ?_, rfl, rfl⟩
  obtain ⟨close, heffects⟩ := hanswered.rejected _ hvalidate
  rw [hnone] at heffects
  cases heffects

end Nodeoze.Rpc
