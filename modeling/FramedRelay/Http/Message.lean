import FramedRelay.Http.Request
import FramedRelay.Http.Response
import FramedRelay.Text.Utf8

/-!
# Messages

How requests and responses are written on a connection. `parseHead?` reads the head of a request:
the request line and a header on each line after it, to the first empty line, where a line ends
with a line feed before which a carriage return may stand. `Head.request?` adds the body.
`Response.message` is a response as it is sent, and `Message.encode` its bytes.
-/

namespace FramedRelay.Http

/-- The versions of HTTP that are spoken. -/
inductive Version
  | http10
  | http11
  deriving DecidableEq, Repr

/-- The name of a version. -/
def Version.name : Version → String
  | .http10 => "HTTP/1.0"
  | .http11 => "HTTP/1.1"

/-- The head of a request. -/
structure Head where
  method : String
  target : String
  version : Version
  headers : Headers
  deriving DecidableEq, Repr

/-! ## Lines -/

/-- What comes before the first line feed, without a carriage return at its end, and what comes
after it. -/
def splitLine? (bs : Bytes) : Option (Bytes × Bytes) :=
  match bs.dropWhile (· != lineFeed) with
  | [] => none
  | _ :: rest =>
    let line := bs.takeWhile (· != lineFeed)
    some (if line.getLast? = some 0x0D then line.dropLast else line, rest)

/-- A line is followed by less than there was. -/
theorem length_lt_of_splitLine? {bs line rest : Bytes} (h : splitLine? bs = some (line, rest)) :
    rest.length < bs.length := by
  unfold splitLine? at h
  split at h
  · simp at h
  · next b after hdrop =>
    have := (List.dropWhile_suffix (fun b => b != lineFeed) (l := bs)).length_le
    obtain ⟨-, rfl⟩ : _ ∧ after = rest := by simpa using h
    rw [hdrop, List.length_cons] at this
    omega

/-- The lines to the first empty one, and what comes after it. -/
def splitHead? (bs : Bytes) : Option (List Bytes × Bytes) :=
  match h : splitLine? bs with
  | none => none
  | some ([], rest) => some ([], rest)
  | some (b :: line, rest) =>
    have := length_lt_of_splitLine? h
    (splitHead? rest).map fun (lines, rest) => ((b :: line) :: lines, rest)
termination_by bs.length

/-! ## Heads -/

/-- A space or a tab. -/
def isPad (b : UInt8) : Bool := b == 0x20 || b == 0x09

/-- Bytes without the spaces and tabs at both ends. -/
def unpad (bs : Bytes) : Bytes :=
  ((bs.dropWhile isPad).reverse.dropWhile isPad).reverse

/-- A character of a method or of the name of a header. -/
def isTokenChar (c : Char) : Bool :=
  c.isAlphanum || "!#$%&'*+-.^_`|~".toList.contains c

/-- A method, or the name of a header. -/
def isToken (s : String) : Bool := !s.isEmpty && s.all isTokenChar

/-- The version with a name. -/
def Version.named? (name : String) : Option Version :=
  [Version.http10, .http11].find? fun v => v.name == name

/-- A header on its line. -/
def parseHeader? (line : Bytes) : Option (String × Bytes) := do
  let name ← Utf8.decode? (line.takeWhile (· != 0x3A))
  match line.dropWhile (· != 0x3A) with
  | [] => none
  | _ :: value => if isToken name then some (name, unpad value) else none

/-- The head whose lines are these. -/
def Head.ofLines? : List Bytes → Option Head
  | [] => none
  | first :: lines => do
    let headers ← lines.mapM parseHeader?
    match (← Utf8.decode? first).splitOn " " with
    | [method, target, version] =>
      let version ← Version.named? version
      if isToken method ∧ !target.isEmpty then some { method, target, version, headers } else none
    | _ => none

/-- A carriage return or a line feed. -/
def isLineEnd (b : UInt8) : Bool := b == 0x0D || b == 0x0A

/-- The head at the front of some bytes, lines without text before it left out, and what comes
after it; nothing if it has not come to its end, and an inner nothing if it is not well formed. -/
def parseHead? (bs : Bytes) : Option (Option (Head × Bytes)) :=
  (splitHead? (bs.dropWhile isLineEnd)).map fun (lines, rest) =>
    (Head.ofLines? lines).map fun head => (head, rest)

/-! ## Bodies -/

/-- The value of a header mentions a word. -/
def Headers.mentions (hs : Headers) (name word : String) : Bool :=
  hs.any fun h => sameName h.1 name &&
    ((Utf8.decodeLossy h.2).splitOn ",").any fun part => sameName part.trimAscii.toString word

/-- The number that digits alone denote. -/
def digits? (value : Bytes) : Option Nat :=
  match lengthOf? value with
  | some n => if value.all fun b => 0x30 ≤ b && b ≤ 0x39 then some n else none
  | none => none

/-- The length of the body that follows a head, if all that is said of it agrees. -/
def Head.bodyLength? (h : Head) : Option Nat :=
  let values := (h.headers.filter fun h => sameName h.1 "content-length").map Prod.snd
  match values.mapM digits? with
  | none => none
  | some [] => some 0
  | some (n :: ns) => if ns.all (· == n) then some n else none

/-- The body breaks off with the connection. -/
def Piece.disconnected : Piece :=
  .fault "hyper::Error(Body, Custom \x7b kind: UnexpectedEof, error: IncompleteBody \x7d)"

/-- The request of a head and the bytes after it, if the length of the body is well formed. -/
def Head.request? (h : Head) (rest : Bytes) : Option Request := do
  let length ← h.bodyLength?
  let missing := if rest.length < length then [Piece.disconnected] else []
  return { method := h.method, target := h.target, headers := h.headers
           body := .data (rest.take length) :: missing }

/-- The connection is kept for another request. -/
def Head.keepsAlive (h : Head) : Bool :=
  match h.version with
  | .http10 => h.headers.mentions "connection" "keep-alive"
  | .http11 => !h.headers.mentions "connection" "close"

/-! ## Responses -/

/-- A response as it is sent. -/
structure Message where
  statusLine : String
  headers : List (String × String)
  body : Bytes
  deriving DecidableEq, Repr

/-- The words that go with a status. -/
def statusWords : Nat → String
  | 200 => "OK"
  | 400 => "Bad Request"
  | 404 => "Not Found"
  | 405 => "Method Not Allowed"
  | _ => "Internal Server Error"

/-- What is said of the connection, where it does not go without saying. -/
def connectionHeaders : Version → Bool → List (String × String)
  | .http10, true => [("connection", "keep-alive")]
  | .http11, false => [("connection", "close")]
  | _, _ => []

/-- A response as it is sent on a connection that is kept or closed. -/
def Response.message (r : Response) (version : Version) (kept : Bool) : Message where
  statusLine := version.name ++ " " ++ toString r.status ++ " " ++ statusWords r.status
  headers := r.headers ++ connectionHeaders version kept
  body := r.body

/-- The answer to bytes that are no request. -/
def Message.badRequest : Message :=
  Response.message ⟨400, [("content-length", "0")], []⟩ .http11 false

/-- The bytes of a message. -/
def Message.encode (m : Message) : Bytes :=
  let headers := m.headers.map fun (k, v) => k ++ ": " ++ v ++ "\r\n"
  Utf8.encode (m.statusLine ++ "\r\n" ++ String.join headers ++ "\r\n") ++ m.body

end FramedRelay.Http
