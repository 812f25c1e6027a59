import FramedRelay.Clock
import FramedRelay.Failure

/-!
# Events

What the relay reports about its work. An `Event` holds what happened; its `level` and its
`message` say how it is reported.
-/

namespace FramedRelay

/-- How much attention an event asks for. -/
inductive Level
  | trace | debug | info | warn | error
  deriving DecidableEq, Repr

/-- The name of a level. -/
def Level.name : Level → String
  | .trace => "TRACE"
  | .debug => "DEBUG"
  | .info => "INFO"
  | .warn => "WARN"
  | .error => "ERROR"

/-- What happened. -/
inductive Event
  /-- A whole frame was written and flushed. -/
  | frameSent (size : Nat)
  /-- A whole reply was read off a connection. -/
  | replyRead (size : Nat)
  /-- The peer closed before it sent anything. -/
  | closedWithoutReply
  /-- The peer closed after a reply that no line feed ends. -/
  | closedWithoutDelimiter
  /-- Bytes that arrived with the delimiter, but after it, were dropped. -/
  | surplusDiscarded (size : Nat)
  /-- An unchecked body turned out to be no JSON text. -/
  | bodyNotJson (reason : String)
  /-- A payload holds the byte that ends its frame. -/
  | delimiterInBody
  /-- A connection that was given up could not be closed. -/
  | shutdownFailed (reason : String)
  | addressFailed (address reason : String)
  | connected (destination : String)
  | replyReceived (size : Nat) (destination : String)
  | forwardingRequest (size : Nat) (path destination : String)
  | requestRejected (failure : Failure)
  | bodyUnreadable (reason : String)
  | forwardingFailed (failure : Failure)
  /-- A task was abandoned without an answer. -/
  | taskFailed (reason : Abort)
  | boundExceeded (destination : String) (bound : Span)
  | optionsRead (options : String)
  | destinationChosen (destination framing mode : String)
  | listening (host : String) (port : String)
  | shutdownRequested
  | stopped
  deriving DecidableEq, Repr

namespace Event

def level : Event → Level
  | frameSent _ | replyRead _ | shutdownFailed _ => .trace
  | closedWithoutReply | closedWithoutDelimiter | surplusDiscarded _ | bodyNotJson _
  | addressFailed .. | connected _ | replyReceived .. | forwardingRequest .. => .debug
  | delimiterInBody => .warn
  | requestRejected _ | bodyUnreadable _ | forwardingFailed _ | taskFailed _
  | boundExceeded .. => .error
  | optionsRead _ | destinationChosen .. | listening .. | shutdownRequested | stopped => .info

/-- The wording of an event, after the mark that every event has. -/
def text : Event → String
  | frameSent size => "sent frame (" ++ toString size ++ " bytes)"
  | replyRead size => "received reply (" ++ toString size ++ " bytes)"
  | closedWithoutReply => "peer closed without replying"
  | closedWithoutDelimiter => "peer closed without a delimiter, using partial reply"
  | surplusDiscarded size =>
    "discarding " ++ toString size ++ " bytes after the reply delimiter"
  | bodyNotJson reason => "forwarding body that is not JSON: " ++ reason
  | delimiterInBody =>
    "request body contains the frame delimiter, the destination may see a truncated message"
  | shutdownFailed reason => "shutdown of outbound connection failed: " ++ reason
  | addressFailed address reason => "connect to " ++ address ++ " failed: " ++ reason
  | connected destination => "connected to " ++ destination
  | replyReceived size destination =>
    "received reply (" ++ toString size ++ " bytes) from " ++ destination
  | forwardingRequest size path destination =>
    "forwarding " ++ toString size ++ " bytes for " ++ path ++ " to " ++ destination
  | requestRejected failure => "rejected request: " ++ failure.message
  | bodyUnreadable reason => "failed to read request body: " ++ reason
  | forwardingFailed failure => "forwarding failed: " ++ failure.message
  | taskFailed reason =>
    "spawn_blocking task failed: JoinError::Panic(Id(1), \"" ++ reason.message ++ "\", ...)"
  | boundExceeded destination bound =>
    "forwarding to " ++ destination ++ " exceeded " ++ bound.describe
  | optionsRead options => options
  | destinationChosen destination framing mode =>
    "forwarding to " ++ destination ++ " (" ++ framing ++ " framing, " ++ mode ++ " JSON mode)"
  | listening host port => "listening at http://" ++ host ++ ":" ++ port
  | shutdownRequested => "shutdown signal received"
  | stopped => "stopped"

/-- The line that reports an event. -/
def message (e : Event) : String := "[bridge] " ++ e.text

end Event

end FramedRelay
