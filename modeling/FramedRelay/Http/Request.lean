import FramedRelay.Event
import FramedRelay.Http.Headers
import FramedRelay.Options

/-!
# Requests

A `Request` has a method, a target, headers, and a body that comes in pieces and may break off.
`Request.path` is the part of the target that decides what is done. `Request.toPayload` decides
whether a request is forwarded and what its payload is: it must announce a length within the
limit, its body must have exactly that length, and the JSON mode must take it.
-/

namespace FramedRelay.Http

/-- A part of the body of a request. -/
inductive Piece
  | data (bytes : Bytes)
  /-- The body breaks off. -/
  | fault (reason : String)
  deriving DecidableEq, Repr

/-- A request. -/
structure Request where
  method : String := "POST"
  target : String := "/"
  headers : Headers := []
  body : List Piece := []
  deriving DecidableEq, Repr

/-- Why a body cannot be read. -/
inductive BodyFault
  | tooLong
  | broken (reason : String)
  deriving DecidableEq, Repr

/-- The wording of a fault. -/
def BodyFault.message : BodyFault → String
  | .tooLong => "Error \x7b inner: LengthLimitError \x7d"
  | .broken reason => "Error \x7b inner: Error \x7b inner: " ++ reason ++ " \x7d \x7d"

/-- The pieces of a body together, of which at most `room` bytes may come. -/
def readBody (room : Nat) : List Piece → Except BodyFault Bytes
  | [] => .ok []
  | .fault reason :: _ => .error (.broken reason)
  | .data bytes :: pieces =>
    if room < bytes.length then .error .tooLong
    else (readBody (room - bytes.length) pieces).map (bytes ++ ·)

namespace Request

/-- The path of a request: its target without the scheme and the host before it, if it names
them, and without the query after it. -/
def path (r : Request) : String :=
  let afterHost := match r.target.toList.head?, r.target.splitOn "://" with
    | some '/', _ => r.target.toList
    | _, _ :: rest@(_ :: _) => ("://".intercalate rest).toList.dropWhile fun c => !endsHost c
    | _, _ => r.target.toList
  let path := String.ofList (afterHost.takeWhile fun c => c != '?' && c != '#')
  if path.isEmpty then "/" else path
where
  /-- The character after a host. -/
  endsHost (c : Char) : Bool := c == '/' || c == '?' || c == '#'

/-- The failure of a body that cannot be read in the length announced. -/
def mismatch (length : Nat) : Failure :=
  .malformedInput ("request body does not match Content-Length of " ++ toString length ++ " bytes")

/-- The failure of a body that ends before the length announced. -/
def shortfall (size length : Nat) : Failure :=
  .malformedInput ("request body of " ++ toString size ++ " bytes does not match Content-Length of "
    ++ toString length ++ " bytes")

/-- The body of a request with an admissible length, with what there is to report. -/
def wholeBody (limit : Nat) (r : Request) : Except Failure Bytes × List Event :=
  match contentLength r.headers limit with
  | .error f => (.error f, [.requestRejected f])
  | .ok length =>
    match readBody length r.body with
    | .error e => (.error (mismatch length), [.bodyUnreadable e.message])
    | .ok body =>
      if body.length = length then (.ok body, [])
      else (.error (shortfall body.length length), [])

/-- The payload of a request that is forwarded, with what there is to report. -/
def toPayload (c : Config) (r : Request) : Except Failure Bytes × List Event :=
  match r.wholeBody c.maxRequestBytes with
  | (.error f, events) => (.error f, events)
  | (.ok body, events) =>
    match Payload.prepare body c.jsonMode c.framing with
    | (.error f, later) => (.error f, events ++ later ++ [.requestRejected f])
    | (.ok payload, later) =>
      (.ok payload, events ++ later ++
        [.forwardingRequest payload.length r.path c.destination.display])

end Request

end FramedRelay.Http
