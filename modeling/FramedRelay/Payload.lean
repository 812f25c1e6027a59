import FramedRelay.Event
import FramedRelay.Frame.Encoding
import FramedRelay.Json.Read

/-!
# Payloads

`Payload.prepare` turns the body of a request into the payload that is sent on: as it is
(`passthrough`, with a note if it is no JSON text), as it is if it is a JSON text (`validate`), or
as the same JSON value on one line (`compact`). A payload that holds a line feed cannot be told
apart from two under newline framing, and is reported.
-/

namespace FramedRelay

/-- What is done with the body of a request. -/
inductive JsonMode
  | passthrough
  | validate
  | compact
  deriving DecidableEq, Repr

/-- The name of a mode, as options spell it. -/
def JsonMode.name : JsonMode → String
  | .passthrough => "passthrough"
  | .validate => "validate"
  | .compact => "compact"

namespace Payload

/-- The failure of a body that is no JSON text. -/
def notJson (e : Json.Error) : Failure :=
  .malformedInput ("invalid JSON: " ++ e.message)

/-- The payload of a body in a mode, with what there is to report about the body. -/
def ofBody (mode : JsonMode) (body : Bytes) : Except Failure Bytes × List Event :=
  match mode with
  | .passthrough =>
    match Json.skim body with
    | .ok () => (.ok body, [])
    | .error e => (.ok body, [.bodyNotJson e.message])
  | .validate =>
    match Json.skim body with
    | .ok () => (.ok body, [])
    | .error e => (.error (notJson e), [])
  | .compact =>
    match Json.read body with
    | .ok v => (.ok v.print, [])
    | .error e => (.error (notJson e), [])

/-- What there is to report about a payload. -/
def delimiterEvents (framing : Framing) (payload : Bytes) : List Event :=
  if framing = .newline ∧ lineFeed ∈ payload then [.delimiterInBody] else []

/-- The payload of a body, with what there is to report. -/
def prepare (body : Bytes) (mode : JsonMode) (framing : Framing) :
    Except Failure Bytes × List Event :=
  match ofBody mode body with
  | (.ok payload, events) => (.ok payload, events ++ delimiterEvents framing payload)
  | (.error failure, events) => (.error failure, events)

end Payload

end FramedRelay
