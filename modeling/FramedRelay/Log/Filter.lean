import FramedRelay.Event

/-!
# Which events are written

A filter is a list of directives with commas between them: `level`, `source` or `source=level`.
Of the directives whose source starts the source of an event, the longest one decides: the event
is written if its level is at least as urgent. A directive without a source is for all of them,
and one without a level lets everything pass.
-/

namespace FramedRelay.Log

/-- The part of the program that an event comes from. -/
def source : Event → String
  | .optionsRead _ | .destinationChosen .. | .stopped => "vsock_bridge"
  | .listening .. | .shutdownRequested => "vsock_bridge::application"
  | .forwardingRequest .. | .requestRejected _ | .bodyUnreadable _ | .forwardingFailed _ =>
    "vsock_bridge::routes"
  | .bodyNotJson _ | .delimiterInBody => "vsock_bridge::models"
  | .addressFailed .. => "vsock_bridge::destination"
  | .connected _ | .replyReceived .. | .shutdownFailed _ | .taskFailed _ | .boundExceeded .. =>
    "vsock_bridge::forwarder"
  | .frameSent _ | .replyRead _ | .closedWithoutReply | .closedWithoutDelimiter
  | .surplusDiscarded _ => "vsock_bridge::protocol"

/-- How much a level lets pass: nothing at zero, everything at five. -/
def verbosity : Level → Nat
  | .error => 1
  | .warn => 2
  | .info => 3
  | .debug => 4
  | .trace => 5

/-- One part of a filter. -/
structure Directive where
  source : String
  verbosity : Nat
  deriving DecidableEq, Repr

/-- The verbosity with a name, or with a number. -/
def verbosityNamed? (name : String) : Option Nat :=
  let name := String.ofList (name.toList.map Char.toLower)
  (["off", "error", "warn", "info", "debug", "trace"].idxOf? name).or
    (["0", "1", "2", "3", "4", "5"].idxOf? name)

/-- A character of the name of a source. -/
def isSourceChar (c : Char) : Bool := c.isAlphanum || c == '_' || c == ':' || c == '-'

/-- The directive for a source, which may also be a level and then stands for all sources. -/
def Directive.of? (source : String) (verbosity : Nat) : Option Directive :=
  if source.isEmpty ∨ !source.all isSourceChar then none
  else if (verbosityNamed? source).isSome then some ⟨"", verbosity⟩
  else some ⟨source, verbosity⟩

/-- Reads one part of a filter. -/
def Directive.parse? (part : String) : Option Directive :=
  match part.splitOn "=" with
  | [word] =>
    match verbosityNamed? word with
    | some v => some ⟨"", v⟩
    | none => Directive.of? word 5
  | [source, ""] => Directive.of? source 5
  | [source, level] => (verbosityNamed? level).bind (Directive.of? source)
  | _ => none

/-- A filter, and the parts of it that could not be read. -/
structure Filter where
  directives : List Directive
  ignored : List String := []
  deriving DecidableEq, Repr

/-- Reads a filter; one without a single directive lets errors pass. -/
def Filter.parse (text : String) : Filter :=
  let parts := (text.splitOn ",").filter fun p => !p.isEmpty
  let directives := parts.filterMap Directive.parse?
  { directives := if directives.isEmpty then [⟨"", 1⟩] else directives
    ignored := parts.filter fun p => (Directive.parse? p).isNone }

/-- The filter if none is chosen. -/
def Filter.standard : Filter := .parse "info,tower_http=debug"

/-- The directive that decides on a source; of two for the same source, the later one. -/
def Filter.deciding? (f : Filter) (source : String) : Option Directive :=
  (f.directives.filter fun d => d.source.toList.isPrefixOf source.toList).foldl
    (fun best? d => match best? with
      | none => some d
      | some best => some (if best.source.length ≤ d.source.length then d else best))
    none

/-- An event of a source and a level is written. -/
def Filter.passes (f : Filter) (source : String) (level : Level) : Bool :=
  match f.deciding? source with
  | none => false
  | some d => verbosity level ≤ d.verbosity

/-- What is said of a part of a filter that could not be read. -/
def ignoredText (part : String) : String :=
  "ignoring `" ++ part ++ "`: invalid filter directive\n"

end FramedRelay.Log
