import FramedRelay.Failure
import FramedRelay.Json.Print

/-!
# Responses

What the relay answers to a request. Failures of any kind are answered with status 500 and a JSON
object whose only member, `error`, holds the message.
-/

namespace FramedRelay.Http

/-- An answer to a request; the names of the headers are in lower case. -/
structure Response where
  status : Nat
  headers : List (String × String)
  body : Bytes
  deriving DecidableEq, Repr

/-- The headers of an answer in JSON. -/
def jsonHeaders : List (String × String) := [("content-type", "application/json")]

/-- An answer that holds a JSON value. -/
def Response.json (status : Nat) (v : Json.Value) : Response :=
  ⟨status, jsonHeaders, v.print⟩

/-- The answer to a request that failed. -/
def Response.ofFailure (f : Failure) : Response :=
  .json 500 (.object [("error", .string f.message)])

end FramedRelay.Http
