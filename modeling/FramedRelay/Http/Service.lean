import FramedRelay.Forwarder
import FramedRelay.Http.Request
import FramedRelay.Http.Response

/-!
# The service

What is done with a request. Its method and path decide on a `Route`: the state of the relay is
told at `/health`, every POST is forwarded, and nothing else is served. `handle` is the whole
answer to a request by itself; `begin` is the part of it before the payload is forwarded, and
`conclude` the part after.
-/

namespace FramedRelay.Http

/-- What is to be done with a request. -/
inductive Route
  | health
  | forward
  /-- The method is not one of these. -/
  | notAllowed (allowed : String)
  | notFound
  deriving DecidableEq, Repr

/-- What is to be done for a method and a path. -/
def route (method path : String) : Route :=
  if path = "/health" then
    if method = "GET" ∨ method = "HEAD" then .health
    else if method = "POST" then .forward
    else .notAllowed "GET,HEAD,POST"
  else if path.toList.head? = some '/' then
    if method = "POST" then .forward else .notAllowed "POST"
  else .notFound

/-- The state of the relay. -/
def healthBody (c : Config) (openConnections : Nat) : Json.Value :=
  .object [("status", .string "ok"), ("destination", .string c.destination.display),
    ("open_connections", .number (.integer openConnections))]

namespace Response

/-- An answer with the length of its body among its headers, and without the body if only the
headers were asked for. -/
def complete (method : String) (r : Response) : Response :=
  { r with
    headers := r.headers ++ [("content-length", toString r.body.length)]
    body := if method = "HEAD" then [] else r.body }

/-- The answer to a method that is not served. -/
def notAllowed (allowed : String) : Response := ⟨405, [("allow", allowed)], []⟩

/-- The answer where nothing is served. -/
def notFound : Response := ⟨404, [], []⟩

/-- The answer that passes on a reply. -/
def ofReply (reply : Bytes) : Response := ⟨200, jsonHeaders, reply⟩

end Response

/-- What becomes of a request. -/
inductive Verdict
  /-- It is answered at once. -/
  | respond (response : Response)
  /-- A payload is forwarded, and the answer depends on what comes back. -/
  | forward (payload : Bytes)

/-- What becomes of a request while `openConnections` are open, with what there is to report. -/
def begin (c : Config) (openConnections : Nat) (r : Request) : Verdict × List Event :=
  match route r.method r.path with
  | .health =>
    (.respond ((Response.json 200 (healthBody c openConnections)).complete r.method), [])
  | .notAllowed allowed => (.respond ((Response.notAllowed allowed).complete r.method), [])
  | .notFound => (.respond (Response.notFound.complete r.method), [])
  | .forward =>
    match r.toPayload c with
    | (.ok payload, events) => (.forward payload, events)
    | (.error f, events) => (.respond ((Response.ofFailure f).complete r.method), events)

/-- The answer to a request whose payload was forwarded, with what there is to report. -/
def conclude (r : Request) : Except Failure Bytes → Response × List Event
  | .ok reply => ((Response.ofReply reply).complete r.method, [])
  | .error f => ((Response.ofFailure f).complete r.method, [.forwardingFailed f])

/-- The answer to a request by itself, when dialling comes to `attempts`. -/
def handle (c : Config) (openConnections : Nat) (attempts : List Attempt) (r : Request) :
    Response × List Event :=
  match begin c openConnections r with
  | (.respond response, events) => (response, events)
  | (.forward payload, events) =>
    let (result, later) := forwardBounded c payload attempts
    let (response, last) := conclude r result
    (response, events ++ later ++ last)

end FramedRelay.Http
