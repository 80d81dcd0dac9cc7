import Mathlib.Data.List.Basic
import Mathlib.Tactic.Common

/-!
# The SOCKS5 filter

`socks5_proxy` negotiates with a proxy server before it passes anything on.  `send` greets the server
and keeps what is to be sent; `recv` is given what the server sends, in chunks of any size, and answers
it, until the server has connected.  Then what was kept is sent, and from there on the filter passes
everything on.

A reply may be cut into several chunks.  What follows a reply in its last chunk is lost, and so it is
with the address in the reply to the connect request, whose end is never waited for.
-/

namespace Nodeoze.Net.Socks5

abbrev Bytes := List UInt8

/-- `stream::state_t` -/
inductive StreamState
  | disconnected
  | handshaking
  | connected
  | error
  deriving DecidableEq, Repr

/-- `state5_t` -/
inductive State5
  | waitingForOpeningResponse
  | waitingForAuthenticationResponse
  | waitingForConnectResponse
  | connected
  deriving DecidableEq, Repr

/-- What the filter is told from outside: the authorization of the proxy manager, the username and the
password that are decoded from it, and the address and the port of the destination. -/
structure Config where
  authorization : Bytes
  username : Bytes
  password : Bytes
  to_ : Bytes

/-- `socks5_proxy` -/
structure Proxy where
  sentGreeting : Bool
  recvHandshake : Bytes
  state : StreamState
  sendQueue : Bytes
  state5 : State5
  deriving DecidableEq

def Proxy.create : Proxy := ⟨false, [], .handshaking, [], .waitingForOpeningResponse⟩

/-- `buffer::rotate`, where `from` is not behind `end`. -/
def rotate (bs : Bytes) (to_ from_ end_ : Nat) : Bytes :=
  if to_ < bs.length ∧ from_ < bs.length ∧ end_ ≤ bs.length then
    bs.take to_ ++ (bs.drop from_).take (end_ - from_) ++ bs.drop (to_ + (end_ - from_))
  else bs

variable (c : Config)

/-- The length of a username or a password. -/
def capped (bs : Bytes) : Nat := min bs.length 255

/-- `make_auth_buffer`; the length before the password is the one of the username. -/
def makeAuthBuffer : Bytes :=
  1 :: UInt8.ofNat (capped c.username) :: c.username.take (capped c.username) ++
    UInt8.ofNat (capped c.username) :: c.password.take (capped c.password)

/-- `make_connect_buffer` -/
def makeConnectBuffer : Bytes := [5, 1, 0, 1] ++ c.to_

def greeting : Bytes := if 0 < c.authorization.length then [5, 2, 0, 2] else [5, 1, 0]

/-- `send`, with what it puts into `out_buf`. -/
def send (p : Proxy) (inBuf : Bytes) : Proxy × Bytes :=
  if p.state = .handshaking then
    ({ p with sentGreeting := true, sendQueue := p.sendQueue ++ inBuf,
              state5 := .waitingForOpeningResponse, state := .connected },
      if !p.sentGreeting then greeting c else [])
  else if p.state5 ≠ .connected then ({ p with sendQueue := p.sendQueue ++ inBuf }, [])
  else (p, inBuf)

/-- What `recv` leaves of its buffer, and what it puts into `out_send_buf` and `out_recv_bufs`. -/
structure Received where
  proxy : Proxy
  inRecvBuf : Bytes
  outSendBuf : Bytes
  outRecvBufs : List Bytes

/-- What a reply of `need` bytes has so far. -/
def gather (need : Nat) (p : Proxy) (chunk : Bytes) : Bytes :=
  p.recvHandshake ++ chunk.take (min (need - p.recvHandshake.length) chunk.length)

/-- The reply is not complete. -/
def waits (need : Nat) (p : Proxy) (chunk : Bytes) : Received :=
  ⟨{ p with recvHandshake := gather need p chunk },
    rotate chunk 0 (min (need - p.recvHandshake.length) chunk.length) chunk.length, [], []⟩

/-- The server has connected; `from` is where the address should end. -/
def connects (p : Proxy) (chunk : Bytes) (from_ : Nat) : Received :=
  ⟨{ p with sendQueue := [], state5 := .connected, state := .connected },
    rotate chunk 0 from_ chunk.length, p.sendQueue, []⟩

/-- `recv`, given one buffer. -/
def recv (p : Proxy) (chunk : Bytes) : Received :=
  match p.state5 with
  | .waitingForOpeningResponse =>
    let handshake := gather 2 p chunk
    if handshake.length < 2 then waits 2 p chunk
    else if handshake.getD 0 0 = 5 then
      if handshake.getD 1 0 = 0 then
        ⟨{ p with recvHandshake := [], state5 := .waitingForConnectResponse }, chunk,
          makeConnectBuffer c, []⟩
      else if handshake.getD 1 0 = 2 then
        ⟨{ p with recvHandshake := [], state5 := .waitingForAuthenticationResponse }, chunk,
          makeAuthBuffer c, []⟩
      else ⟨{ p with recvHandshake := [], state := .error }, chunk, [], []⟩
    else ⟨{ p with recvHandshake := [], state := .error }, chunk, [], []⟩
  | .waitingForAuthenticationResponse =>
    let handshake := gather 2 p chunk
    if handshake.length < 2 then waits 2 p chunk
    else if handshake.getD 0 0 = 1 ∧ handshake.getD 1 0 = 0 then
      ⟨{ p with recvHandshake := [], state5 := .waitingForConnectResponse }, chunk,
        makeConnectBuffer c, []⟩
    else ⟨{ p with recvHandshake := [], state := .error }, chunk, [], []⟩
  | .waitingForConnectResponse =>
    let handshake := gather 4 p chunk
    let p' := { p with recvHandshake := handshake }
    if handshake.length < 4 then waits 4 p chunk
    else if handshake.getD 0 0 = 5 ∧ handshake.getD 1 0 = 0 then
      if handshake.getD 3 0 = 1 then connects p' chunk 6
      else if handshake.getD 3 0 = 3 then connects p' chunk ((chunk.getD 0 0).toNat + 1)
      else if handshake.getD 3 0 = 4 then connects p' chunk 18
      else ⟨{ p' with state := .error }, chunk, [], []⟩
    else ⟨p', chunk, [], []⟩
  | .connected => ⟨p, [], [], [chunk]⟩

/-! ## Runs -/

inductive Event
  | send (data : Bytes)
  | recv (chunk : Bytes)

/-- A filter and what it has put out: to the server by `send` and by `recv`, and to the user. -/
structure Trace where
  proxy : Proxy
  outBufs : Bytes
  outSendBufs : Bytes
  delivered : Bytes
  deriving DecidableEq

def Trace.create : Trace := ⟨.create, [], [], []⟩

def step (t : Trace) : Event → Trace
  | .send data =>
    let (proxy, out) := send c t.proxy data
    { t with proxy := proxy, outBufs := t.outBufs ++ out }
  | .recv chunk =>
    let r := recv c t.proxy chunk
    { t with proxy := r.proxy, outSendBufs := t.outSendBufs ++ r.outSendBuf,
             delivered := t.delivered ++ r.outRecvBufs.flatten }

def run (t : Trace) (es : List Event) : Trace := es.foldl (step c) t

/-- What was passed to `send`. -/
def sends (es : List Event) : Bytes :=
  es.flatMap fun
    | .send data => data
    | .recv _ => []

/-- What was received. -/
def recvd (es : List Event) : Bytes :=
  es.flatMap fun
    | .send _ => []
    | .recv chunk => chunk

/-! ## What the server sends -/

/-- The address in a reply, with the port. -/
inductive Address
  | v4 (bs : { bs : Bytes // bs.length = 6 })
  | domain (name : { bs : Bytes // bs.length < 256 }) (port : { bs : Bytes // bs.length = 2 })
  | v6 (bs : { bs : Bytes // bs.length = 18 })

def Address.type : Address → UInt8
  | .v4 _ => 1
  | .domain _ _ => 3
  | .v6 _ => 4

def Address.bytes : Address → Bytes
  | .v4 bs => bs.1
  | .domain name port => UInt8.ofNat name.1.length :: name.1 ++ port.1
  | .v6 bs => bs.1

/-- The server asks for a username, or not. -/
def methodReply (auth : Bool) : Bytes := [5, if auth then 2 else 0]

def authReply (auth : Bool) : Bytes := if auth then [1, 0] else []

def connectReply (status rsv : UInt8) (a : Address) : Bytes := [5, status, rsv, a.type] ++ a.bytes

/-- The request with the username and the password, each with its own length. -/
def authRequest : Bytes :=
  1 :: UInt8.ofNat (capped c.username) :: c.username.take (capped c.username) ++
    UInt8.ofNat (capped c.password) :: c.password.take (capped c.password)

def requests (auth : Bool) : Bytes := (if auth then authRequest c else []) ++ makeConnectBuffer c

/-- What is passed to `send` before `n` bytes have come. -/
def sendsBefore : Nat → List Event → Bytes
  | _, [] => []
  | n, .send data :: es => data ++ sendsBefore n es
  | n, .recv chunk :: es => if chunk.length < n then sendsBefore (n - chunk.length) es else []

/-- The payload is delivered, the filter is connected, and the server has got the requests and what
was to be sent. -/
structure Tunnels (auth : Bool) (first : Bytes) (replies : Nat) (payload : Bytes) (es : List Event)
    (t : Trace) : Prop where
  delivered : t.delivered = payload
  connected : t.proxy.state = .connected ∧ t.proxy.state5 = .connected
  sent : t.outSendBufs = requests c auth ++ (first ++ sendsBefore replies es)

/-! ## The handshake -/

theorem run_append (t : Trace) (es es' : List Event) : run c t (es ++ es') = run c (run c t es) es' :=
  List.foldl_append

theorem recvd_append (es es' : List Event) : recvd (es ++ es') = recvd es ++ recvd es' :=
  List.flatMap_append

theorem sends_append (es es' : List Event) : sends (es ++ es') = sends es ++ sends es' :=
  List.flatMap_append

/-- The filter waits for a reply, of which it has some bytes. -/
def waiting (state5 : State5) (handshake queue out sent : Bytes) : Trace :=
  ⟨⟨true, handshake, .connected, queue, state5⟩, out, sent, []⟩

/-- How many bytes are waited for. -/
def State5.need : State5 → Nat
  | .waitingForOpeningResponse => 2
  | .waitingForAuthenticationResponse => 2
  | .waitingForConnectResponse => 4
  | .connected => 0

theorem gather_of_le {need : Nat} {p : Proxy} {chunk : Bytes}
    (h : (p.recvHandshake ++ chunk).length ≤ need) : gather need p chunk = p.recvHandshake ++ chunk := by
  rw [List.length_append] at h
  rw [gather, Nat.min_eq_right (by omega), List.take_length]

theorem step_send_waiting {state5 : State5} (hstate : state5 ≠ .connected)
    (handshake queue out sent data : Bytes) :
    step c (waiting state5 handshake queue out sent) (.send data)
      = waiting state5 handshake (queue ++ data) out sent := by
  simp [step, send, waiting, hstate]

theorem recv_waits {p : Proxy} {chunk : Bytes}
    (h : (gather p.state5.need p chunk).length < p.state5.need) :
    recv c p chunk = waits p.state5.need p chunk := by
  unfold recv
  cases hstate : p.state5 with
  | connected => simp [hstate, State5.need] at h
  | _ =>
    rw [hstate] at h
    exact if_pos h

theorem step_recv_waiting {state5 : State5} {handshake chunk : Bytes}
    (h : (handshake ++ chunk).length < state5.need) (queue out sent : Bytes) :
    step c (waiting state5 handshake queue out sent) (.recv chunk)
      = waiting state5 (handshake ++ chunk) queue out sent := by
  let p := (waiting state5 handshake queue out sent).proxy
  have hgather : gather p.state5.need p chunk = handshake ++ chunk := gather_of_le (Nat.le_of_lt h)
  have hrecv : recv c p chunk = waits p.state5.need p chunk := by
    apply recv_waits
    rw [hgather]
    exact h
  simp only [step]
  rw [show (waiting state5 handshake queue out sent).proxy = p from rfl, hrecv, waits, hgather]
  simp [waiting, p]

/-- As long as a reply is not complete, what comes is kept, and so is what is to be sent. -/
theorem run_waiting {state5 : State5} {handshake : Bytes} {es : List Event}
    (h : (handshake ++ recvd es).length < state5.need) (queue out sent : Bytes) :
    run c (waiting state5 handshake queue out sent) es
      = waiting state5 (handshake ++ recvd es) (queue ++ sends es) out sent := by
  induction es generalizing handshake queue with
  | nil => simp [run, recvd, sends]
  | cons e es ih =>
    cases e with
    | send data =>
      have hstate : state5 ≠ .connected := by
        rintro rfl
        simp [State5.need] at h
      have hrest : (handshake ++ recvd es).length < state5.need := h
      change run c (step c (waiting state5 handshake queue out sent) (.send data)) es = _
      rw [step_send_waiting c hstate, ih hrest]
      simp [recvd, sends]
    | recv chunk =>
      have hrest : (handshake ++ chunk ++ recvd es).length < state5.need := by
        rw [List.append_assoc]
        exact h
      have hchunk : (handshake ++ chunk).length < state5.need := by
        rw [List.length_append] at hrest
        omega
      change run c (step c (waiting state5 handshake queue out sent) (.recv chunk)) es = _
      rw [step_recv_waiting c hchunk, ih hrest]
      simp [recvd, sends]

/-- The chunk with the `n`-th byte. -/
theorem exists_chunk {es : List Event} {n : Nat} (hpos : 0 < n) (hle : n ≤ (recvd es).length) :
    ∃ before chunk after, es = before ++ .recv chunk :: after ∧ (recvd before).length < n ∧
      n ≤ (recvd before ++ chunk).length := by
  induction es generalizing n with
  | nil =>
    simp [recvd] at hle
    omega
  | cons e es ih =>
    cases e with
    | send data =>
      obtain ⟨before, chunk, after, rfl, hlt, hge⟩ := ih hpos hle
      exact ⟨.send data :: before, chunk, after, rfl, hlt, hge⟩
    | recv chunk =>
      by_cases hchunk : n ≤ chunk.length
      · exact ⟨[], chunk, es, rfl, hpos, hchunk⟩
      · have hlength : (recvd (.recv chunk :: es)).length = chunk.length + (recvd es).length := by
          simp [recvd]
        obtain ⟨before, chunk', after, rfl, hlt, hge⟩ :=
          @ih (n - chunk.length) (by omega) (by omega)
        refine ⟨.recv chunk :: before, chunk', after, rfl, ?_, ?_⟩
        · have : (recvd (.recv chunk :: before)).length = chunk.length + (recvd before).length := by
            simp [recvd]
          omega
        · have : (recvd (.recv chunk :: before) ++ chunk').length
              = chunk.length + (recvd before ++ chunk').length := by
            simp [recvd]
          omega

/-- A reply that ends with a chunk. -/
theorem run_reply {state5 state5' : State5} {es : List Event} {out request : Bytes}
    (hlength : (recvd es).length = state5.need) (hpos : 0 < state5.need) (hpos' : 0 < state5'.need)
    (hstep : ∀ handshake chunk queue sent, handshake ++ chunk = recvd es →
      step c (waiting state5 handshake queue out sent) (.recv chunk)
        = waiting state5' [] queue out (sent ++ request)) (queue sent : Bytes) :
    run c (waiting state5 [] queue out sent) es
      = waiting state5' [] (queue ++ sends es) out (sent ++ request) := by
  obtain ⟨before, chunk, after, rfl, hlt, hge⟩ := exists_chunk hpos (Nat.le_of_eq hlength.symm)
  have hrecvd : recvd (before ++ .recv chunk :: after) = recvd before ++ chunk ++ recvd after := by
    simp [recvd]
  have hafter : recvd after = [] := by
    apply List.eq_nil_of_length_eq_zero
    rw [hrecvd, List.length_append] at hlength
    omega
  have hreply : recvd before ++ chunk = recvd (before ++ .recv chunk :: after) := by
    rw [hrecvd, hafter, List.append_nil]
  have hsends : sends (before ++ .recv chunk :: after) = sends before ++ sends after := by
    simp [sends]
  rw [run_append, run_waiting c (by simpa using hlt)]
  change run c (step c (waiting state5 ([] ++ recvd before) (queue ++ sends before) out sent)
    (.recv chunk)) after = _
  rw [List.nil_append, hstep _ _ _ _ hreply, run_waiting c (by simpa [hafter] using hpos'), hafter, hsends]
  simp

theorem step_opening {auth : Bool} {handshake chunk : Bytes} (h : handshake ++ chunk = methodReply auth)
    (queue out sent : Bytes) :
    step c (waiting .waitingForOpeningResponse handshake queue out sent) (.recv chunk)
      = waiting (if auth then .waitingForAuthenticationResponse else .waitingForConnectResponse) [] queue out
          (sent ++ if auth then makeAuthBuffer c else makeConnectBuffer c) := by
  have hgather : gather 2 (waiting .waitingForOpeningResponse handshake queue out sent).proxy chunk
      = methodReply auth := by
    rw [← h]
    apply gather_of_le
    change (handshake ++ chunk).length ≤ 2
    rw [h]
    exact Nat.le_refl 2
  have hstate : (waiting .waitingForOpeningResponse handshake queue out sent).proxy.state5
      = .waitingForOpeningResponse := rfl
  simp only [step, recv, hstate, hgather]
  cases auth <;> rfl

theorem step_authentication {handshake chunk : Bytes} (h : handshake ++ chunk = authReply true)
    (queue out sent : Bytes) :
    step c (waiting .waitingForAuthenticationResponse handshake queue out sent) (.recv chunk)
      = waiting .waitingForConnectResponse [] queue out (sent ++ makeConnectBuffer c) := by
  have hgather : gather 2 (waiting .waitingForAuthenticationResponse handshake queue out sent).proxy chunk
      = authReply true := by
    rw [← h]
    apply gather_of_le
    change (handshake ++ chunk).length ≤ 2
    rw [h]
    exact Nat.le_refl 2
  have hstate : (waiting .waitingForAuthenticationResponse handshake queue out sent).proxy.state5
      = .waitingForAuthenticationResponse := rfl
  simp only [step, recv, hstate, hgather]
  rfl

/-- The filter is connected. -/
def tunnel (handshake out sent delivered : Bytes) : Trace :=
  ⟨⟨true, handshake, .connected, [], .connected⟩, out, sent, delivered⟩

/-- The fourth byte of the reply to the connect request has come. -/
theorem gather_connect {handshake chunk : Bytes} (hlt : handshake.length < 4)
    (hge : 4 ≤ (handshake ++ chunk).length) {reply rest : Bytes} (hreply : reply.length = 4) {rest' : Bytes}
    (h : handshake ++ chunk ++ rest = reply ++ rest') (queue out sent : Bytes) :
    gather 4 (waiting .waitingForConnectResponse handshake queue out sent).proxy chunk = reply := by
  change handshake ++ chunk.take (min (4 - handshake.length) chunk.length) = reply
  rw [List.length_append] at hge
  have htake : (handshake ++ chunk ++ rest).take 4 = reply := by
    rw [h, List.take_append_of_le_length (by omega), ← hreply, List.take_length]
  have hsplit : (handshake ++ (chunk ++ rest)).take 4 = handshake ++ chunk.take (4 - handshake.length) := by
    rw [List.take_append, List.take_of_length_le (Nat.le_of_lt hlt),
      List.take_append_of_le_length (by omega)]
  rw [Nat.min_eq_left (by omega), ← hsplit, ← List.append_assoc, htake]

theorem step_connect {handshake chunk : Bytes} (hlt : handshake.length < 4)
    (hge : 4 ≤ (handshake ++ chunk).length) {rsv : UInt8} {a : Address} {rest rest' : Bytes}
    (h : handshake ++ chunk ++ rest = connectReply 0 rsv a ++ rest') (queue out sent : Bytes) :
    step c (waiting .waitingForConnectResponse handshake queue out sent) (.recv chunk)
      = tunnel [5, 0, rsv, a.type] out (sent ++ queue) [] := by
  have hgather := @gather_connect handshake chunk hlt hge [5, 0, rsv, a.type] rest rfl (a.bytes ++ rest')
    (by rw [h, connectReply, List.append_assoc]) queue out sent
  have hstate : (waiting .waitingForConnectResponse handshake queue out sent).proxy.state5
      = .waitingForConnectResponse := rfl
  simp only [step, recv, hstate, hgather]
  cases a <;> rfl

theorem step_refused {handshake chunk : Bytes} (hlt : handshake.length < 4)
    (hge : 4 ≤ (handshake ++ chunk).length) {status rsv : UInt8} (hstatus : status ≠ 0) {a : Address}
    {rest rest' : Bytes} (h : handshake ++ chunk ++ rest = connectReply status rsv a ++ rest')
    (queue out sent : Bytes) :
    step c (waiting .waitingForConnectResponse handshake queue out sent) (.recv chunk)
      = waiting .waitingForConnectResponse [5, status, rsv, a.type] queue out sent := by
  have hgather := @gather_connect handshake chunk hlt hge [5, status, rsv, a.type] rest rfl (a.bytes ++ rest')
    (by rw [h, connectReply, List.append_assoc]) queue out sent
  have hstate : (waiting .waitingForConnectResponse handshake queue out sent).proxy.state5
      = .waitingForConnectResponse := rfl
  simp only [step, recv, hstate, hgather]
  simp [hstatus, waiting]

/-- Everything is passed on. -/
theorem run_tunnel (handshake out sent delivered : Bytes) (es : List Event) :
    run c (tunnel handshake out sent delivered) es
      = tunnel handshake (out ++ sends es) sent (delivered ++ recvd es) := by
  induction es generalizing out delivered with
  | nil => simp [run, sends, recvd]
  | cons e es ih =>
    cases e with
    | send data =>
      change run c (tunnel handshake (out ++ data) sent delivered) es = _
      rw [ih]
      simp [sends, recvd]
    | recv chunk =>
      have hstep : step c (tunnel handshake out sent delivered) (.recv chunk)
          = tunnel handshake out sent (delivered ++ chunk) := by
        simp [step, recv, tunnel]
      change run c (step c (tunnel handshake out sent delivered) (.recv chunk)) es = _
      rw [hstep, ih]
      simp [sends, recvd]

/-- A server that refuses is never given up. -/
theorem run_refused {status rsv type : UInt8} (hstatus : status ≠ 0) (queue out sent : Bytes)
    (es : List Event) :
    run c (waiting .waitingForConnectResponse [5, status, rsv, type] queue out sent) es
      = waiting .waitingForConnectResponse [5, status, rsv, type] (queue ++ sends es) out sent := by
  induction es generalizing queue with
  | nil => simp [run, sends]
  | cons e es ih =>
    cases e with
    | send data =>
      change run c (step c _ (.send data)) es = _
      rw [step_send_waiting c (by decide), ih]
      simp [sends]
    | recv chunk =>
      have hstep : step c (waiting .waitingForConnectResponse [5, status, rsv, type] queue out sent)
          (.recv chunk) = waiting .waitingForConnectResponse [5, status, rsv, type] queue out sent := by
        simp [step, recv, waiting, gather, hstatus]
      change run c (step c _ (.recv chunk)) es = _
      rw [hstep, ih]
      simp [sends]

/-! ## Chunks -/

/-- The replies before the one to the connect request end with a chunk; the rest of what comes. -/
def Aligned (auth : Bool) (es rest : List Event) : Prop :=
  ∃ es₁ es₂, es = es₁ ++ es₂ ++ rest ∧ recvd es₁ = methodReply auth ∧ recvd es₂ = authReply auth

/-- The reply to the connect request ends with the chunk that its fourth byte is in. -/
def Whole (reply : Bytes) (rest : List Event) : Prop :=
  ∃ before chunk after, rest = before ++ .recv chunk :: after ∧ (recvd before).length < 4 ∧
    recvd before ++ chunk = reply

/-- What the filter sends for the replies that it waits for first. -/
def firstRequests (auth : Bool) : Bytes := (if auth then makeAuthBuffer c else []) ++ makeConnectBuffer c

/-- The first message goes out with the greeting, and is kept. -/
def greeted (first : Bytes) : Trace := step c .create (.send first)

theorem greeted_eq (first : Bytes) :
    greeted c first = waiting .waitingForOpeningResponse [] first (greeting c) [] := rfl

theorem run_aligned {auth : Bool} {es rest : List Event} (first : Bytes) {es₁ es₂ : List Event}
    (hes : es = es₁ ++ es₂ ++ rest) (h₁ : recvd es₁ = methodReply auth) (h₂ : recvd es₂ = authReply auth) :
    run c (greeted c first) es
      = run c (waiting .waitingForConnectResponse [] (first ++ sends (es₁ ++ es₂)) (greeting c)
          (firstRequests c auth)) rest := by
  rw [hes, run_append, run_append, greeted_eq]
  congr 1
  have hopening := @run_reply c .waitingForOpeningResponse
    (if auth then .waitingForAuthenticationResponse else .waitingForConnectResponse) es₁ (greeting c)
    (if auth then makeAuthBuffer c else makeConnectBuffer c) (by rw [h₁]; rfl) (by decide)
    (by cases auth <;> decide) (fun handshake chunk queue sent hreply =>
      step_opening c (hreply.trans h₁) queue (greeting c) sent) first []
  rw [hopening]
  cases auth with
  | false =>
    have hnone : recvd es₂ = [] := h₂
    simp only [Bool.false_eq_true, if_false]
    rw [run_waiting c (by simp [hnone, State5.need]), hnone, sends_append, List.append_assoc]
    rfl
  | true =>
    simp only [if_true]
    rw [@run_reply c .waitingForAuthenticationResponse .waitingForConnectResponse es₂ (greeting c)
      (makeConnectBuffer c) (by rw [h₂]; rfl) (by decide) (by decide)
      (fun handshake chunk queue sent hreply =>
        step_authentication c (hreply.trans h₂) queue (greeting c) sent), sends_append, List.append_assoc]
    rfl

theorem run_connect {rsv : UInt8} {a : Address} {payload : Bytes} {before after : List Event} {chunk : Bytes}
    (hrecvd : recvd (before ++ .recv chunk :: after) = connectReply 0 rsv a ++ payload)
    (hlt : (recvd before).length < 4) (hge : 4 ≤ (recvd before ++ chunk).length) (queue out sent : Bytes) :
    run c (waiting .waitingForConnectResponse [] queue out sent) (before ++ .recv chunk :: after)
      = tunnel [5, 0, rsv, a.type] (out ++ sends after) (sent ++ (queue ++ sends before)) (recvd after) := by
  have hsplit : recvd before ++ chunk ++ recvd after = connectReply 0 rsv a ++ payload := by
    rw [← hrecvd]
    simp [recvd]
  rw [run_append, run_waiting c hlt, List.nil_append]
  change run c (step c _ (.recv chunk)) after = _
  rw [step_connect c hlt hge hsplit, run_tunnel, List.nil_append]

theorem sendsBefore_append {n : Nat} {before after : List Event} {chunk : Bytes}
    (hlt : (recvd before).length < n) (hge : n ≤ (recvd before ++ chunk).length) :
    sendsBefore n (before ++ .recv chunk :: after) = sends before := by
  induction before generalizing n with
  | nil =>
    have hchunk : ¬chunk.length < n := by
      simp [recvd] at hge
      omega
    simp [sendsBefore, hchunk, sends]
  | cons e before ih =>
    cases e with
    | send data =>
      rw [List.cons_append, sendsBefore, ih hlt hge]
      simp [sends]
    | recv chunk' =>
      have hlength : (recvd (.recv chunk' :: before)).length = chunk'.length + (recvd before).length := by
        simp [recvd]
      rw [List.length_append, hlength] at hge
      rw [List.cons_append, sendsBefore, if_pos (by omega), ih (by omega) (by rw [List.length_append]; omega)]
      simp [sends]

/-- The length of the password is told as the one of the username. -/
theorem makeAuthBuffer_eq_iff :
    makeAuthBuffer c = authRequest c ↔ capped c.username = capped c.password := by
  unfold makeAuthBuffer authRequest
  constructor
  · intro h
    have hlengths := (List.cons.inj (List.append_cancel_left h)).1
    have hu : capped c.username < 256 := by
      unfold capped
      omega
    have hp : capped c.password < 256 := by
      unfold capped
      omega
    have hnat := congrArg UInt8.toNat hlengths
    rw [UInt8.toNat_ofNat', UInt8.toNat_ofNat'] at hnat
    omega
  · intro h
    rw [h]

theorem firstRequests_eq_iff (auth : Bool) :
    firstRequests c auth = requests c auth ↔ (auth = true → capped c.username = capped c.password) := by
  unfold firstRequests requests
  rw [List.append_cancel_right_eq]
  cases auth with
  | false => simp
  | true => simp [makeAuthBuffer_eq_iff]

theorem recvd_rest {auth : Bool} {es es₁ es₂ rest : List Event} {reply : Bytes}
    (hes : es = es₁ ++ es₂ ++ rest) (h₁ : recvd es₁ = methodReply auth) (h₂ : recvd es₂ = authReply auth)
    (hrecvd : recvd es = methodReply auth ++ authReply auth ++ reply) : recvd rest = reply := by
  rw [hes, recvd_append, recvd_append, h₁, h₂] at hrecvd
  exact List.append_cancel_left hrecvd

theorem four_le_connectReply (status rsv : UInt8) (a : Address) :
    4 ≤ (connectReply status rsv a).length := by
  simp [connectReply]

theorem four_le_length (status rsv : UInt8) (a : Address) (payload : Bytes) :
    4 ≤ (connectReply status rsv a ++ payload).length := by
  rw [List.length_append]
  exact Nat.le_add_right_of_le (four_le_connectReply status rsv a)

theorem sendsBefore_whole {auth : Bool} {es es₁ es₂ before after : List Event} {chunk reply : Bytes}
    (hes : es = es₁ ++ es₂ ++ (before ++ .recv chunk :: after)) (h₁ : recvd es₁ = methodReply auth)
    (h₂ : recvd es₂ = authReply auth) (hlt : (recvd before).length < 4) (hreply : 4 ≤ reply.length)
    (hwhole : recvd before ++ chunk = reply) :
    sendsBefore (methodReply auth ++ authReply auth ++ reply).length es = sends (es₁ ++ es₂) ++ sends before := by
  have hbefore : recvd (es₁ ++ es₂ ++ before) = methodReply auth ++ authReply auth ++ recvd before := by
    rw [recvd_append, recvd_append, h₁, h₂]
  rw [hes, ← List.append_assoc, sendsBefore_append, sends_append]
  · rw [hbefore]
    simp only [List.length_append]
    omega
  · apply Nat.le_of_eq
    rw [hbefore, List.append_assoc _ (recvd before), hwhole]

/-- A proxy without authorization. -/
def plain : Config := ⟨[], [], [], [127, 0, 0, 1, 0, 80]⟩

def somewhere : Address := .v4 ⟨[10, 0, 0, 1, 4, 56], rfl⟩

/-- The replies are cut, too, but their ends are ends of chunks. -/
def wellCut : List Event :=
  [.recv [5], .send [66], .recv [0], .recv [5, 0, 0], .recv [1, 10, 0, 0, 1, 4, 56], .recv [104], .recv [105]]

-- elsewhere only an accident helps: the beginning of the reply is lost, but the name in its address
-- looks like a reply
example :
    let es : List Event := [.recv [5, 0, 5, 0, 0, 3, 4], .recv [5, 0, 0, 1, 0, 80], .recv [104]]
    recvd es = methodReply false ++ authReply false ++
        (connectReply 0 0 (.domain ⟨[5, 0, 0, 1], by decide⟩ ⟨[0, 80], rfl⟩) ++ [104]) ∧
      Tunnels plain false [65] 13 [104] es (run plain (greeted plain [65]) es) :=
  ⟨rfl, by decide, by decide, by decide⟩

/-- The two replies and the payload come in one chunk. -/
def oneChunk : List Event := [.recv (methodReply false ++ connectReply 0 0 somewhere ++ [104, 105])]

end Nodeoze.Net.Socks5
