import Nodeoze.Any.Patch
import Nodeoze.Lib.SortedMap

/-!
# The RPC manager

`rpc::manager` is both sides of JSON-RPC.  As a client it numbers its requests and keeps a promise for
each until the reply comes; as a server it looks for the handler of a request and gives it a closure
to reply with.  `dispatch` takes a message of either kind and tells what is called then.

The handlers, and the promises, are parameters.  The preflight handler is given the message by
reference and may change it.
-/

namespace Nodeoze.Rpc

open Any (text member isNull toUint64 setMember)

/-! ## Messages -/

/-- `any::is_member` -/
def isMember : Any → Key → Bool
  | .object ms, k => (ms.lookup k).isSome
  | _, _ => false

/-- `value[ k ] = v` -/
def put : Any → Key → Any → Any
  | .object ms, k, v => .object (if (ms.lookup k).isSome then setMember ms k v else ms ++ [(k, v)])
  | _, k, v => .object [(k, v)]

def toInt32 : Any → Int32
  | .integer i => i.toInt32
  | _ => 0

def toUint32 : Any → UInt32
  | .integer i => i.toUInt64.toUInt32
  | _ => 0

def isInteger : Any → Bool
  | .integer _ => true
  | _ => false

def isString : Any → Bool
  | .string _ => true
  | _ => false

def isObject : Any → Bool
  | .object _ => true
  | _ => false

def toText : Any → Key
  | .string bs => bs
  | _ => []

def size : Any → Nat
  | .string bs => bs.length
  | .blob bs => bs.length
  | .array xs => xs.length
  | .object ms => ms.length
  | _ => 0

/-! ### What is put is found -/

theorem lookup_setMember_self {ms : List (Key × Any)} {k : Key} (h : (ms.lookup k).isSome = true) (v : Any) :
    (setMember ms k v).lookup k = some v := by
  induction ms with
  | nil => simp at h
  | cons m ms ih =>
    obtain ⟨k', v'⟩ := m
    rw [setMember]
    by_cases hk : k' = k
    · rw [if_pos hk, hk]
      exact List.lookup_cons_self
    · have hk' : (k == k') = false := beq_eq_false_iff_ne.mpr (Ne.symm hk)
      rw [List.lookup_cons, hk'] at h
      rw [if_neg hk, List.lookup_cons, hk']
      exact ih h

theorem lookup_setMember_ne {k k' : Key} (hne : k' ≠ k) (ms : List (Key × Any)) (v : Any) :
    (setMember ms k v).lookup k' = ms.lookup k' := by
  induction ms with
  | nil => rfl
  | cons m ms ih =>
    obtain ⟨k'', v'⟩ := m
    rw [setMember]
    by_cases hk : k'' = k
    · have hk' : (k' == k) = false := beq_eq_false_iff_ne.mpr hne
      rw [if_pos hk, hk, List.lookup_cons, List.lookup_cons, hk']
    · rw [if_neg hk, List.lookup_cons, List.lookup_cons, ih]

theorem isObject_put (x : Any) (k : Key) (v : Any) : isObject (put x k v) = true := by
  cases x <;> rfl

/-- `find` among the members. -/
def lookup : Any → Key → Option Any
  | .object ms, k => ms.lookup k
  | _, _ => none

theorem isMember_eq (x : Any) (k : Key) : isMember x k = (lookup x k).isSome := by
  cases x <;> rfl

theorem member_eq (x : Any) (k : Key) : member x k = (lookup x k).getD .null := by
  cases x <;> rfl

theorem lookup_put_self (x : Any) (k : Key) (v : Any) : lookup (put x k v) k = some v := by
  cases x with
  | object ms =>
    simp only [put, lookup]
    split_ifs with h
    · exact lookup_setMember_self h v
    · rw [Bool.not_eq_true, Option.isSome_eq_false_iff, Option.isNone_iff_eq_none] at h
      rw [List.lookup_append, h]
      simp
  | _ => simp [put, lookup]

theorem lookup_put_ne (x : Any) {k k' : Key} (hne : k' ≠ k) (v : Any) :
    lookup (put x k v) k' = lookup x k' := by
  cases x with
  | object ms =>
    simp only [put, lookup]
    split_ifs with h
    · exact lookup_setMember_ne hne ms v
    · rw [List.lookup_append]
      simp [List.lookup_cons, beq_eq_false_iff_ne.mpr hne]
  | _ => simp [put, lookup, List.lookup_cons, beq_eq_false_iff_ne.mpr hne]

/-! ## Errors -/

inductive Errc
  | ok
  | invalidRequest
  | methodNotFound
  | invalidParams
  | internalError
  | parseError
  deriving DecidableEq, Repr

def Errc.value : Errc → Int32
  | .ok => 0
  | .invalidRequest => -32600
  | .methodNotFound => -32601
  | .invalidParams => -32602
  | .internalError => -32603
  | .parseError => -32700

/-- The error category of RPC, and those of others. -/
inductive Category
  | rpc
  | other (name : Nat)
  deriving DecidableEq, Repr

/-- `std::error_code` -/
structure ErrorCode where
  value : Int32
  category : Category
  deriving DecidableEq, Repr

def makeErrorCode (e : Errc) : ErrorCode := ⟨e.value, .rpc⟩

def isSystemDefinedError (val : Int32) : Bool :=
  decide (val = Errc.parseError.value) ||
    (decide (Errc.internalError.value ≤ val) && decide (val ≤ Errc.invalidRequest.value))

def isUserDefinedError (val : Int32) : Bool := decide (-32099 ≤ val) && decide (val ≤ -32000)

/-- `rpc_error_category::message` -/
def rpcMessage (val : Int32) : Key :=
  if val = Errc.ok.value then text "ok"
  else if val = Errc.invalidRequest.value then text "invalid request"
  else if val = Errc.methodNotFound.value then text "method not found"
  else if val = Errc.invalidParams.value then text "invalid params"
  else if val = Errc.internalError.value then text "internal error"
  else if val = Errc.parseError.value then text "parse error"
  else []

section

-- the messages of the other categories
variable (describe : Nat → Int32 → Key)

/-- `std::error_code::message` -/
def ErrorCode.message (err : ErrorCode) : Key :=
  match err.category with
  | .rpc => rpcMessage err.value
  | .other name => describe name err.value

def errorObject (code : Int32) (message : Key) : Any :=
  put .null (text "error")
    (put (put .null (text "code") (.integer code.toInt64)) (text "message") (.string message))

/-- `make_error( std::error_code )` -/
def makeError (err : ErrorCode) : Any :=
  if err.category = .rpc then errorObject err.value (err.message describe)
  else if isUserDefinedError err.value then errorObject err.value (err.message describe)
  else errorObject Errc.internalError.value (text "unknown")

/-- `make_error( const any &, std::error_code )` -/
def makeErrorReply (in_ : Any) (err : ErrorCode) : Any :=
  let out := put .null (text "error") (makeError describe err)
  let out := put out (text "jsonrpc") (.string (text "2.0"))
  put out (text "id") (member in_ (text "id"))

/-! ## The manager -/

variable {H P : Type}

/-- `rpc::manager`: a handler is kept with the number of its parameters, a promise with the owner of
the request. -/
structure Manager (H P : Type) where
  userDefinedErrorCategory : Option Category
  preflight : Option (Any → Any × ErrorCode)
  notificationHandlers : List (Key × Nat × H)
  requestHandlers : List (Key × Nat × H)
  replyHandlers : SortedMap Nat (Nat × P)
  id : Int32

/-- What is called: the reply function, a handler, a promise. -/
inductive Effect (H P : Type)
  | reply (message : Any) (close : Bool)
  | request (h : H) (params : Any) (id : UInt32)
  | notify (h : H) (params : Any)
  | resolve (p : P) (result : Any)
  | reject (p : P) (err : ErrorCode)

/-- The error of `validate`. -/
def invalidRequest : Any :=
  let err := put (put .null (text "code") (.integer Errc.invalidRequest.value.toInt64))
    (text "message") (.string (text "Invalid JSON-RPC request."))
  put (put (put .null (text "id") .null) (text "jsonrpc") (.string (text "2.0"))) (text "error") err

/-- `validate`, with the error where it fails. -/
def validate (message : Any) : Option Any :=
  if !isObject message || !isMember message (text "jsonrpc")
      || toText (member message (text "jsonrpc")) != text "2.0" then some invalidRequest
  else if !isMember message (text "method") && !isMember message (text "id") then some invalidRequest
  else if isMember message (text "id") && !isInteger (member message (text "id")) then some invalidRequest
  else if isMember message (text "method") && !isString (member message (text "method")) then
    some invalidRequest
  else none

/-- The closure that a request handler replies with. -/
def replyWith (id : UInt32) (root : Any) : Any :=
  put (put root (text "jsonrpc") (.string (text "2.0"))) (text "id") (.integer id.toUInt64.toInt64)

namespace Manager

variable (m : Manager H P)

/-- The message as the preflight handler leaves it, and its error. -/
def preflighted (message : Any) : Any × ErrorCode :=
  match m.preflight with
  | some f => f message
  | none => (message, ⟨0, .rpc⟩)

/-- What a request comes to: an error and the message as the preflight handler left it, or the handler
and the parameters. -/
def request (message : Any) : Except (Any × ErrorCode) (H × Any) :=
  let method := toText (member message (text "method"))
  let (message, err) := m.preflighted message
  if err.value = 0 then
    match m.requestHandlers.lookup method with
    | some (numParams, h) =>
      let params := member message (text "params")
      if numParams = size params then .ok (h, params)
      else .error (message, makeErrorCode .invalidParams)
    | none => .error (message, makeErrorCode .methodNotFound)
  else .error (message, err)

/-- The error of a reply. -/
def replyError (message : Any) : Option ErrorCode :=
  if isNull (member message (text "error")) then none
  else
    let code := toInt32 (member (member message (text "error")) (text "code"))
    if isSystemDefinedError code then some ⟨code, .rpc⟩
    else if isUserDefinedError code then
      match m.userDefinedErrorCategory with
      | some category => some ⟨code, category⟩
      | none => some (makeErrorCode .internalError)
    else some (makeErrorCode .internalError)

/-- The key under which the promise of a reply is looked for. -/
def replyKey (message : Any) : Option Nat :=
  match member message (text "id") with
  | .integer i => some (toUint64 i).toNat
  | _ => none

/-- The promise that waits for a reply, and its key. -/
def waiting (message : Any) : Option (Nat × P) :=
  (replyKey message).bind fun key => (m.replyHandlers.find key).map fun entry => (key, entry.2)

/-- How a reply settles its promise. -/
def settlement (message : Any) (p : P) : Effect H P :=
  match m.replyError message with
  | none => .resolve p (member message (text "result"))
  | some err => .reject p err

/-- A reply takes the promise out of the table before it settles it. -/
def reply (message : Any) : Manager H P × List (Effect H P) :=
  match m.waiting message with
  | none => (m, [])
  | some (key, p) =>
    ({ m with replyHandlers := m.replyHandlers.erase key }, [m.settlement message p])

def dispatch (message : Any) : Manager H P × List (Effect H P) :=
  match validate message with
  | some _ => (m, [])
  | none =>
    if isMember message (text "method") then
      if isMember message (text "id") then
        match m.request message with
        | .ok (h, params) => (m, [.request h params (toUint32 (member message (text "id")))])
        | .error (message, err) => (m, [.reply (makeErrorReply describe message err) false])
      else
        match m.notificationHandlers.lookup (toText (member message (text "method"))) with
        | some (numParams, h) =>
          let params := member message (text "params")
          (m, if numParams = size params then [.notify h params] else [])
        | none => (m, [])
    else m.reply message

/-- The key under which the promise of a request is kept. -/
def requestKey (id : Int32) : Nat := id.toInt64.toUInt64.toNat

/-- `send_request`, with the message that it sends.  The last number has no next one. -/
def sendRequest (method : Key) (args : List Any) (owner : Nat) (promise : P) : Option (Manager H P × Any) :=
  if m.id = Int32.maxValue then none
  else
    let id := m.id + 1
    let root := put .null (text "jsonrpc") (.string (text "2.0"))
    let root := put root (text "method") (.string method)
    let root := put root (text "params") (.array args)
    let root := put root (text "id") (.integer id.toInt64)
    some ({ m with id := id, replyHandlers := m.replyHandlers.assign (requestKey id) (owner, promise) }, root)

end Manager

end

end Nodeoze.Rpc
