import Nodeoze.Buffer.CheckedStores
import Nodeoze.Net.Socks5
import Nodeoze.Lib.Base64

/-!
# The username and the password of a proxy

`proxy::manager` keeps the username and the password in one base64 text, in which a `:` divides them.
When the proxy server asks for them, `make_auth_buffer` takes them apart again and lays them out as a
request, each behind its length.  The second length byte is the one of the username, too.

The base64 functions of the library are parameters.
-/

namespace Nodeoze.Net.Proxy

open Buffer RefHeap Splice Socks5

section Operations

variable (base64Encode base64Decode : Bytes → Bytes) (junk : Nat → Nat → UInt8)

def colon : UInt8 := 58

/-- `encode_authorization`: what `m_authorization` is set to. -/
def encodeAuthorization (username password : Bytes) : Bytes :=
  base64Encode (username ++ colon :: password)

/-- `codec::base64::decode`: a buffer of the size of the text takes what the text stands for. -/
def decode (str : Bytes) : Option Heap :=
  Buffer.assign junk (allocate junk RefHeap.empty str.length .copyOnWrite) 0 (base64Decode str)

/-- `decode_authorization`, which leaves the username and the password as they are when there is no
`:`; its caller passes empty ones. -/
def decodeAuthorization (authorization : Bytes) : Option (Bytes × Bytes) := do
  let H ← decode base64Decode junk authorization
  let tmp ← H.content 0
  if tmp.length > 0 then
    match tmp.findIdx? (· == colon) with
    | some spot => pure (tmp.take spot, (tmp.drop (spot + 1)).take authorization.length)
    | none => pure ([], [])
  else pure ([], [])

/-- `buf.put( ibuf++, b )` for one byte after the other. -/
def puts (H : Heap) (i : Nat) : Nat → Bytes → Option Heap
  | _, [] => some H
  | ibuf, b :: bs => do
    let H ← Buffer.put H i ibuf [b]
    puts H i (ibuf + 1) bs

/-- `make_auth_buffer`, as the bytes are put. -/
def makeAuthBuffer (authorization : Bytes) : Option Heap := do
  let (username, password) ← decodeAuthorization base64Decode junk authorization
  let ulen := capped username
  let plen := capped password
  let H := allocate junk RefHeap.empty (3 + ulen + plen) .copyOnWrite
  let H ← puts H 0 0 [1, UInt8.ofNat ulen]
  let H ← puts H 0 2 (username.take ulen)
  let H ← puts H 0 (2 + ulen) [UInt8.ofNat ulen]
  puts H 0 (3 + ulen) (password.take plen)

/-- What the proxy server gets, after a call of `encode_authorization`. -/
def authMessage (username password : Bytes) : Option Bytes := do
  let H ← makeAuthBuffer base64Decode junk (encodeAuthorization base64Encode username password)
  H.content 0

end Operations

/-- A request of RFC 1929: the version, the username and the password behind their lengths, and
nothing more. -/
def parseRequest : Bytes → Option (Bytes × Bytes)
  | version :: ulen :: rest =>
    match rest.drop ulen.toNat with
    | plen :: passwd =>
      if version = 1 ∧ ulen.toNat ≤ rest.length ∧ passwd.length = plen.toNat then
        some (rest.take ulen.toNat, passwd)
      else none
    | [] => none
  | _ => none

section Decoding

variable {base64Encode base64Decode : Bytes → Bytes} (junk : Nat → Nat → UInt8)

/-- What a text of its own length stands for fits into the buffer. -/
theorem decode_content {str : Bytes} (hne : base64Decode str ≠ [])
    (hlength : (base64Decode str).length ≤ str.length) :
    ∃ H, decode base64Decode junk str = some H ∧ H.content 0 = some (base64Decode str) := by
  obtain ⟨h, B, o, -, hstart, hrefs, -⟩ :=
    owned_construct (WF.empty : (RefHeap.empty : Heap).WF guarded)
      (malloc junk (RefHeap.empty : Heap).next str.length) .copyOnWrite
  have hmem : str.length ≤ B.mem.length := by
    have hsize := o.size_le
    rw [← o.length, length_malloc] at hsize
    exact hsize
  obtain ⟨H, hassign, hcontent, -⟩ := o.assign_room junk hne (Or.inl hrefs) (by omega)
  exact ⟨H, hassign, hcontent⟩

theorem findIdx?_colon {username password : Bytes} (hcolon : colon ∉ username) :
    (username ++ colon :: password).findIdx? (· == colon) = some username.length := by
  rw [List.findIdx?_eq_some_iff_getElem]
  refine ⟨by simp, by simp, ?_⟩
  intro j hj
  rw [List.getElem_append_left hj]
  simp only [beq_iff_eq]
  intro heq
  exact hcolon (heq ▸ List.getElem_mem hj)

/-- The first `:` is the one between the username and the password. -/
theorem decodeAuthorization_encode (hdecode : ∀ bs, base64Decode (base64Encode bs) = bs)
    (hlength : ∀ bs, (base64Encode bs).length = 4 * ((bs.length + 2) / 3)) {username password : Bytes}
    (hcolon : colon ∉ username) :
    decodeAuthorization base64Decode junk (encodeAuthorization base64Encode username password)
      = some (username, password) := by
  let both := username ++ colon :: password
  have hboth : both.length = username.length + password.length + 1 := by
    simp [both]
    omega
  have hfits : both.length ≤ (base64Encode both).length := by
    rw [hlength]
    omega
  obtain ⟨H, hrun, hcontent⟩ := @decode_content base64Decode junk (base64Encode both)
    (by rw [hdecode]; simp [both]) (by rw [hdecode]; exact hfits)
  rw [hdecode] at hcontent
  have hfind : both.findIdx? (· == colon) = some username.length := findIdx?_colon hcolon
  have hpassword : (both.drop (username.length + 1)).take (base64Encode both).length = password := by
    have hdrop : both.drop (username.length + 1) = password := by simp [both]
    rw [hdrop]
    apply List.take_of_length_le
    omega
  have husername : both.take username.length = username := by simp [both]
  show decodeAuthorization base64Decode junk (base64Encode both) = _
  simp only [decodeAuthorization, hrun, Option.bind_eq_bind, Option.bind_some, hcontent]
  rw [if_pos (by omega), hfind]
  simp only [husername, hpassword, Option.pure_def]

end Decoding

/-! ## The bytes of the request -/

/-- The buffer has room for `n` bytes, of which the first are `done`. -/
def Filled (H : Heap) (n : Nat) (done : Bytes) : Prop :=
  ∃ h B c, Owned H 0 h B c ∧ h.size = n ∧ c.take done.length = done

theorem Filled.put {H : Heap} {n : Nat} {done : Bytes} (hfilled : Filled H n done) (b : UInt8)
    (hroom : done.length + 1 ≤ n) :
    ∃ H', Buffer.put H 0 done.length [b] = some H' ∧ Filled H' n (done ++ [b]) := by
  obtain ⟨h, B, c, o, rfl, hdone⟩ := hfilled
  obtain ⟨H₁, h₁, B₁, hrun, o₁, -⟩ := o.mutableData
  have hc : c.length = h.size := o.length
  have hc₁ : c.length = h₁.size := o₁.length
  obtain ⟨H₂, B₂, hput, -, o₂, -⟩ := @Owned.rputn H₁ 0 h₁ B₁ c o₁ done.length [b] (by
    rw [List.length_singleton]
    omega)
  refine ⟨H₂, by simp [Buffer.put, hrun, hput], h₁, B₂, _, o₂, by omega, ?_⟩
  have htake := take_splice c done.length [b] (by omega)
  rw [hdone] at htake
  rw [List.length_append]
  exact htake

/-- One byte after the other is put behind what is there. -/
theorem Filled.puts {H : Heap} {n : Nat} {done : Bytes} (bs : Bytes) (hfilled : Filled H n done)
    (hroom : done.length + bs.length ≤ n) :
    ∃ H', puts H 0 done.length bs = some H' ∧ Filled H' n (done ++ bs) := by
  induction bs generalizing H done with
  | nil => exact ⟨H, rfl, by rwa [List.append_nil]⟩
  | cons b bs ih =>
    rw [List.length_cons] at hroom
    obtain ⟨H₁, hput, hfilled₁⟩ := hfilled.put b (by omega)
    have hlength : (done ++ [b]).length = done.length + 1 := by simp
    obtain ⟨H', hputs, hfilled'⟩ := ih hfilled₁ (by omega)
    rw [hlength] at hputs
    rw [List.append_assoc] at hfilled'
    exact ⟨H', by simp [Proxy.puts, hput, hputs], hfilled'⟩

theorem filled_allocate (junk : Nat → Nat → UInt8) (n : Nat) :
    Filled (allocate junk RefHeap.empty n .copyOnWrite) n [] := by
  obtain ⟨h, B, o, -⟩ :=
    owned_construct (WF.empty : (RefHeap.empty : Heap).WF guarded)
      (malloc junk (RefHeap.empty : Heap).next n) .copyOnWrite
  refine ⟨h, B, _, o, ?_, rfl⟩
  rw [← o.length, length_malloc]

theorem Filled.content {H : Heap} {done : Bytes} (hfilled : Filled H done.length done) :
    H.content 0 = some done := by
  obtain ⟨h, B, c, o, hsize, hdone⟩ := hfilled
  rw [o.content, ← hdone, List.take_of_length_le]
  rw [o.length, hsize]

variable {base64Encode base64Decode : Bytes → Bytes} (junk : Nat → Nat → UInt8)

/-- The running index puts every byte in its place. -/
theorem makeAuthBuffer_content {authorization : Bytes} {c : Config}
    (hdecode : decodeAuthorization base64Decode junk authorization = some (c.username, c.password)) :
    ∃ H, makeAuthBuffer base64Decode junk authorization = some H ∧
      H.content 0 = some (Socks5.makeAuthBuffer c) := by
  let ulen := capped c.username
  let plen := capped c.password
  have hu : (c.username.take ulen).length = ulen := by
    simp only [ulen, capped, List.length_take]
    omega
  have hp : (c.password.take plen).length = plen := by
    simp only [plen, capped, List.length_take]
    omega
  obtain ⟨H₁, h₁, f₁⟩ := (filled_allocate junk (3 + ulen + plen)).puts [1, UInt8.ofNat ulen] (by
    simp
    omega)
  obtain ⟨H₂, h₂, f₂⟩ := f₁.puts (c.username.take ulen) (by
    simp [hu]
    omega)
  obtain ⟨H₃, h₃, f₃⟩ := f₂.puts [UInt8.ofNat ulen] (by
    simp [hu]
    omega)
  obtain ⟨H₄, h₄, f₄⟩ := f₃.puts (c.password.take plen) (by
    simp [hu, hp]
    omega)
  have hbytes : [] ++ [1, UInt8.ofNat ulen] ++ c.username.take ulen ++ [UInt8.ofNat ulen] ++
      c.password.take plen = Socks5.makeAuthBuffer c := by
    simp [Socks5.makeAuthBuffer, ulen, plen]
  have hlength : (Socks5.makeAuthBuffer c).length = 3 + ulen + plen := by
    rw [← hbytes]
    simp [hu, hp]
    omega
  rw [hbytes, ← hlength] at f₄
  refine ⟨H₄, ?_, f₄.content⟩
  simp only [List.nil_append, List.length_append, List.length_cons, List.length_nil, hu] at h₁ h₂ h₃ h₄
  rw [show 0 + 1 + 1 + ulen = 2 + ulen by omega] at h₃
  rw [show 0 + 1 + 1 + ulen + (0 + 1) = 3 + ulen by omega] at h₄
  simp only [makeAuthBuffer, hdecode, Option.bind_eq_bind, Option.bind_some]
  rw [h₁, Option.bind_some, h₂, Option.bind_some, h₃, Option.bind_some, h₄]

/-- After `encode_authorization`, the server gets the bytes that `make_auth_buffer` should put. -/
theorem authMessage_eq (hdecode : ∀ bs, base64Decode (base64Encode bs) = bs)
    (hlength : ∀ bs, (base64Encode bs).length = 4 * ((bs.length + 2) / 3)) {username password : Bytes}
    (hcolon : colon ∉ username) (to_ : Bytes) :
    authMessage base64Encode base64Decode junk username password
      = some (Socks5.makeAuthBuffer
          ⟨encodeAuthorization base64Encode username password, username, password, to_⟩) := by
  obtain ⟨H, hmake, hcontent⟩ := @makeAuthBuffer_content base64Decode junk _
    ⟨encodeAuthorization base64Encode username password, username, password, to_⟩
    (decodeAuthorization_encode junk hdecode hlength hcolon)
  simp only [authMessage, hmake, Option.bind_eq_bind, Option.bind_some, hcontent]

/-! ## The request is read -/

/-- The username is read with its own length, and then the password if it has that length as well. -/
theorem parseRequest_makeAuthBuffer {c : Config} (hu : c.username.length ≤ 255)
    (hp : c.password.length ≤ 255) :
    parseRequest (Socks5.makeAuthBuffer c) = some (c.username, c.password) ↔
      c.username.length = c.password.length := by
  have hulen : capped c.username = c.username.length := Nat.min_eq_left hu
  have hplen : capped c.password = c.password.length := Nat.min_eq_left hp
  have hbyte : (UInt8.ofNat c.username.length).toNat = c.username.length := by
    rw [UInt8.toNat_ofNat']
    omega
  simp only [Socks5.makeAuthBuffer, hulen, hplen, List.take_length, List.cons_append, parseRequest, hbyte,
    List.drop_left, List.take_left]
  rw [List.length_append]
  constructor
  · intro h
    by_contra hne
    rw [if_neg (by omega)] at h
    exact absurd h (by simp)
  · intro h
    exact if_pos ⟨trivial, Nat.le_add_right _ _, h.symm⟩

/-- What the proxy server reads is the username and the password that were set if and only if they are
of the same length. -/
theorem authMessage_read_iff (hdecode : ∀ bs, base64Decode (base64Encode bs) = bs)
    (hlength : ∀ bs, (base64Encode bs).length = 4 * ((bs.length + 2) / 3)) (username password : Bytes)
    (hcolon : colon ∉ username) (hu : username.length ≤ 255) (hp : password.length ≤ 255) :
    (authMessage base64Encode base64Decode junk username password).bind parseRequest
        = some (username, password) ↔ username.length = password.length := by
  rw [authMessage_eq junk hdecode hlength hcolon [], Option.bind_some]
  exact @parseRequest_makeAuthBuffer
    ⟨encodeAuthorization base64Encode username password, username, password, []⟩ hu hp

/-- `me` and `no`. -/
theorem equalLengths_read :
    (authMessage Base64.encode Base64.decode (fun _ _ => 0) [109, 101] [110, 111]).bind parseRequest
      = some ([109, 101], [110, 111]) :=
  (authMessage_read_iff (fun _ _ => 0) Base64.decode_encode Base64.length_encode [109, 101] [110, 111]
    (by decide) (by decide) (by decide)).mpr rfl

/-- The request for `a` with the password `bc` promises one byte of password and has two. -/
theorem unequalLengths_misread :
    authMessage Base64.encode Base64.decode (fun _ _ => 0) [97] [98, 99] = some [1, 1, 97, 1, 98, 99] ∧
      (authMessage Base64.encode Base64.decode (fun _ _ => 0) [97] [98, 99]).bind parseRequest = none := by
  have hmessage : authMessage Base64.encode Base64.decode (fun _ _ => 0) [97] [98, 99]
      = some [1, 1, 97, 1, 98, 99] :=
    authMessage_eq _ Base64.decode_encode Base64.length_encode (by decide) []
  rw [hmessage]
  exact ⟨rfl, by decide⟩

end Nodeoze.Net.Proxy
