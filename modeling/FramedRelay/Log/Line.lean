import FramedRelay.Log.Describe
import FramedRelay.Log.Filter

/-!
# Lines of the log

An event is written on a line, as a JSON object or for people to read. With it stand the spans of
work in which it happened, the outermost first; a span is shown if the filter lets informative
events of its source pass.
-/

namespace FramedRelay.Log

/-- A piece of work, with what it works on. -/
structure WorkSpan where
  name : String
  source : String
  /-- The names and values of what it works on. -/
  fields : List (String × Json.Value)

/-- The work on a request for a target. -/
def requestSpan (target : String) : WorkSpan :=
  ⟨"forward", "vsock_bridge::routes", [("uri", .string target)]⟩

/-- The work on a payload. -/
def payloadSpan (destination : String) (size : Nat) : WorkSpan :=
  ⟨"forward", "vsock_bridge::forwarder",
    [("destination", .string destination), ("bytes", .number (.integer size))]⟩

/-- The work of sending a payload. -/
def sendSpan (framing : Framing) (size : Nat) : WorkSpan :=
  ⟨"send_frame", "vsock_bridge::protocol",
    [("framing", .string (capitalized framing.name)), ("bytes", .number (.integer size))]⟩

/-- The work of receiving a reply. -/
def receiveSpan (framing : Framing) (limit : Nat) : WorkSpan :=
  ⟨"recv_frame", "vsock_bridge::protocol",
    [("framing", .string (capitalized framing.name)),
      ("max_reply_bytes", .number (.integer limit))]⟩

/-- The spans in which an event happens that belongs to a request for a target, with a payload of
some size. -/
def spansOf (c : Config) (target : String) (size : Nat) (e : Event) : List WorkSpan :=
  let payload := payloadSpan c.destination.display size
  match e with
  | .forwardingRequest .. | .requestRejected _ | .bodyUnreadable _ | .forwardingFailed _
  | .bodyNotJson _ | .delimiterInBody | .taskFailed _ | .boundExceeded .. => [requestSpan target]
  | .addressFailed .. | .connected _ | .replyReceived .. | .shutdownFailed _ => [payload]
  | .frameSent _ => [payload, sendSpan c.framing size]
  | .replyRead _ | .closedWithoutReply | .closedWithoutDelimiter | .surplusDiscarded _ =>
    [payload, receiveSpan c.framing c.maxReplyBytes]
  | .optionsRead _ | .destinationChosen .. | .listening .. | .shutdownRequested | .stopped => []

/-- How the log is written. -/
structure Style where
  format : LogFormat
  filter : Filter
  /-- Lines for people have colours. -/
  coloured : Bool
  deriving DecidableEq, Repr

/-- The text of a JSON value. -/
def jsonText (v : Json.Value) : String := String.ofList v.text

/-- The text of a value in a line for people. -/
def plainText : Json.Value → String
  | .string s => s
  | v => jsonText v

/-- A text with an attribute of the terminal. -/
def Style.paint (s : Style) (code text : String) : String :=
  if s.coloured then "\x1b[" ++ code ++ "m" ++ text ++ "\x1b[0m" else text

/-- A level in five places, in its colour. -/
def Style.levelText (s : Style) (level : Level) : String :=
  let colour := match level with
    | .trace => "35"
    | .debug => "34"
    | .info => "32"
    | .warn => "33"
    | .error => "31"
  s.paint colour (String.ofList (List.replicate (5 - level.name.length) ' ') ++ level.name)

/-- A span in a line for people. -/
def Style.spanText (s : Style) (w : WorkSpan) : String :=
  let field (f : String × Json.Value) :=
    s.paint "3" f.1 ++ s.paint "2" "=" ++ plainText f.2
  s.paint "1" w.name ++ s.paint "1" "\x7b" ++ " ".intercalate (w.fields.map field) ++
    s.paint "1" "\x7d" ++ s.paint "2" ":"

/-- A span as a JSON value: its fields by name, and its own name last. -/
def spanJson (w : WorkSpan) : Json.Value :=
  .object (w.fields.foldl (fun ms f => Json.Members.insert f.1 f.2 ms) [] ++
    [("name", .string w.name)])

/-- An event as a JSON value. -/
def eventJson (e : Event) (spans : List WorkSpan) : Json.Value :=
  .object ([("level", .string e.level.name),
      ("fields", .object [("message", .string e.message)])] ++
    if spans.isEmpty then [] else [("spans", .array (spans.map spanJson))])

/-- The line of an event at a time, if it is written. -/
def Style.line? (s : Style) (time : String) (spans : List WorkSpan) (e : Event) : Option String :=
  let spans := spans.filter fun w => s.filter.passes w.source .info
  if !s.filter.passes (source e) e.level then none
  else match s.format with
    | .json => some (jsonText (eventJson e spans) ++ "\n")
    | .pretty =>
      let work := String.join (spans.map s.spanText) ++ if spans.isEmpty then "" else " "
      some (s.paint "2" time ++ " " ++ s.levelText e.level ++ " " ++ work ++
        s.paint "2" (source e) ++ s.paint "2" ":" ++ " " ++ e.message ++ "\n")

/-- The lines of some events. -/
def Style.lines (s : Style) (time : String) (spans : Event → List WorkSpan)
    (es : List Event) : String :=
  String.join (es.filterMap fun e => s.line? time (spans e) e)

end FramedRelay.Log
