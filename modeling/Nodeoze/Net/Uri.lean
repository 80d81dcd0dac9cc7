import Nodeoze.Any.Pointer
import Nodeoze.Lib.Rfc3986

/-!
# Resource identifiers

`uri` keeps the parts of a URI.  `assign` has a library split the text, decodes the host and the
segments of the path and puts the path together again; `to_string` takes it apart, without its empty
segments, and has the library print the components.

The functions of the library are parameters.  They are given C strings, which end at the first zero.
-/

namespace Nodeoze.Net

open Any (text)
open Rfc3986 (Text Components Splits Encoded isUnreserved slash colon)

/-- The functions of `uriparser`: `uriParseUriA`, `uriToStringA`, `uriEscapeA` and
`uriUnescapeInPlaceA`. -/
structure UriParser where
  parse : Text → Option Components
  print : Components → Text
  escape : Text → Text
  unescape : Text → Text

/-- What is documented of them: a text is split into the components of RFC 3986, printing puts them
together, and what is escaped has no reserved characters and can be unescaped. -/
structure UriParser.Documented (L : UriParser) : Prop where
  splits : Splits L.parse
  print_eq : ∀ c, L.print c = c.text
  encoded_escape : ∀ t, Encoded isUnreserved (L.escape t)
  unescape_escape : ∀ t, L.unescape (L.escape t) = t
  unescape_plain : ∀ t, Rfc3986.percent ∉ t → L.unescape t = t

/-- A library that does what is documented. -/
def UriParser.reference : UriParser where
  parse := Rfc3986.split
  print := Components.text
  escape := Rfc3986.escape
  unescape := Rfc3986.unescape

theorem UriParser.reference_documented : UriParser.reference.Documented where
  splits := Rfc3986.splits_split
  print_eq _ := rfl
  encoded_escape := Rfc3986.encoded_escape
  unescape_escape := Rfc3986.unescape_escape
  unescape_plain _ := Rfc3986.unescape_of_not_mem

/-- `uri` -/
structure Uri where
  scheme : Text
  username : Text
  password : Text
  host : Text
  port : Int
  path : Text
  query : Text
  parameters : List (Text × Text)
  deriving DecidableEq, Repr

namespace Uri

/-- `clear` -/
def cleared : Uri := ⟨[], [], [], [], 0, [], [], []⟩

/-- What a C function sees of a string. -/
def cstr (s : Text) : Text := s.takeWhile (· != 0)

/-- The loop of `split`, with the token so far; empty tokens are dropped. -/
def splitFrom (delim : UInt8) : Text → Text → List Text
  | token, [] => if token.length > 0 then [token] else []
  | token, c :: cs =>
    if c = delim then
      if token.length > 0 then token :: splitFrom delim [] cs else splitFrom delim [] cs
    else splitFrom delim (token ++ [c]) cs

def split (str : Text) (delim : UInt8) : List Text := splitFrom delim [] str

/-- `atoi`; what does not fit is undefined. -/
def atoi (s : Text) : Option Int :=
  let value : Int :=
    match s.dropWhile Any.isSpace with
    | 45 :: rest => -(((Any.number rest).getD 0 : Nat) : Int)
    | 43 :: rest => ((Any.number rest).getD 0 : Nat)
    | rest => ((Any.number rest).getD 0 : Nat)
  if -2 ^ 31 ≤ value ∧ value < 2 ^ 31 then some value else none

/-- `std::to_string( int )` -/
def decimal (n : Int) : Text := if n < 0 then 45 :: Any.decimal n.natAbs else Any.decimal n.natAbs

/-- The port of a scheme, when none is given. -/
def defaultPort (scheme : Text) : Int :=
  if scheme = text "http" ∨ scheme = text "ws" then 80
  else if scheme = text "https" ∨ scheme = text "wss" then 443
  else 0

/-- The username and the password; the first token is taken without a look whether there is one. -/
def readUserinfo (userinfo : Text) : Option (Text × Text) :=
  if userinfo.length > 0 then
    match split userinfo colon with
    | [] => none
    | username :: rest =>
      some (username, match rest with
        | [password] => password
        | _ => [])
  else some ([], [])

/-- The port of the scheme, or what the text says. -/
def readPort (scheme : Text) : Option Text → Option Int
  | some t => atoi t
  | none => some (defaultPort scheme)

/-- `m_parameters[ k ] = v` -/
def setParameter : List (Text × Text) → Text → Text → List (Text × Text)
  | [], k, v => [(k, v)]
  | (k', v') :: ps, k, v => if k' = k then (k, v) :: ps else (k', v') :: setParameter ps k v

def readParameters (query : Text) : List (Text × Text) :=
  (split query 38).foldl (fun ps param =>
    match split param 61 with
    | [k, v] => setParameter ps k v
    | _ => ps) []

def hostText (c : Components) : Text := (c.host.map Rfc3986.Host.text).getD []

section

variable (L : UriParser)

/-- `encode` -/
def encode (str : Text) : Text := L.escape (cstr str)

/-- `decode` -/
def decode (str : Text) : Text := L.unescape (cstr str)

/-- The path that is put together of its segments. -/
def readPath (segments : List Text) : Text :=
  let path := segments.foldl (fun path t => path ++ slash :: decode L t) []
  if path.length = 0 then [slash] else path

/-- What `assign` makes of the components; `none` is undefined. -/
def read (c : Components) : Option Uri := do
  let scheme := decode L (c.scheme.getD [])
  let (username, password) ← readUserinfo (c.userinfo.getD [])
  let port ← readPort scheme c.port
  let query := c.query.getD []
  pure ⟨scheme, username, password, decode L (hostText c), port, readPath L c.segments, query,
    readParameters query⟩

/-- `assign`, with its result; `none` is undefined. -/
def assign (s : Text) : Option (Uri × Bool) :=
  if s.length > 0 then
    match L.parse (cstr s) with
    | some c => (read L c).map fun u => (u, true)
    | none => some (cleared, false)
  else some (cleared, true)

variable (u : Uri)

/-- The user-info that is printed. -/
def userinfo : Text :=
  if u.username.length > 0 then
    if u.password.length > 0 then u.username ++ colon :: u.password else u.username
  else []

/-- The components that `to_string` fills in.  There always is a scheme and a host. -/
def printed : Components where
  scheme := some u.scheme
  userinfo := if u.userinfo.length > 0 then some u.userinfo else none
  host := some (.name (encode L u.host))
  port := if u.port ≠ 0 then some (decimal u.port) else none
  rooted := false
  segments := if u.path ≠ [slash] then (split u.path slash).map (encode L) else []
  query := if u.query.length > 0 then some u.query else none
  fragment := none

/-- `operator safe_bool_type` -/
def isSet : Bool := decide (u.scheme.length > 0) || decide (u.host.length > 0) || decide (u.path.length > 0)

/-- `to_string` -/
def toString : Text :=
  let ret := if u.isSet then cstr (L.print (printed L u)) else []
  if ret = text "://" then [] else ret

end

/-- `equals` -/
def equals (u rhs : Uri) : Bool :=
  u.scheme == rhs.scheme && u.username == rhs.username && u.password == rhs.password &&
    u.host == rhs.host && u.port == rhs.port && u.path == rhs.path && u.query == rhs.query

end Uri

end Nodeoze.Net
