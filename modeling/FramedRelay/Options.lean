import FramedRelay.Clock
import FramedRelay.Destination
import FramedRelay.Failure
import FramedRelay.Frame.Encoding
import FramedRelay.Payload

/-!
# Options and configuration

`Options` is what a user chooses, with a default for everything. `Options.configure` checks it and
resolves the destination; the `Config` that it gives is what requests are handled with.
-/

namespace FramedRelay

/-- How events are written. -/
inductive LogFormat
  | json
  | pretty
  deriving DecidableEq, Repr

/-- The name of a format, as options spell it. -/
def LogFormat.name : LogFormat → String
  | .json => "json"
  | .pretty => "pretty"

/-- What a user chooses. -/
structure Options where
  host : String := "0.0.0.0"
  port : UInt16 := 8000
  enclaveCid : UInt32 := 16
  enclavePort : UInt32 := 5000
  tcpDestination : Option String := none
  framing : Framing := .newline
  jsonMode : JsonMode := .passthrough
  maxRequestBytes : UInt64 := 1048576
  maxReplyBytes : UInt64 := 10485760
  connectTimeoutMs : UInt64 := 5000
  sendTimeoutMs : UInt64 := 5000
  receiveTimeoutMs : UInt64 := 30000
  logFormat : LogFormat := .json
  deriving DecidableEq, Repr

/-- What requests are handled with. -/
structure Config where
  destination : Destination
  framing : Framing
  jsonMode : JsonMode
  maxRequestBytes : Nat
  maxReplyBytes : Nat
  connectTimeout : Span
  sendTimeout : Span
  receiveTimeout : Span
  deriving DecidableEq, Repr

/-- A number that must not be zero. -/
def positive (setting : String) (n : UInt64) : Except Misconfiguration Nat :=
  if n = 0 then .error (.zero setting) else .ok n.toNat

namespace Options

/-- The host and the port to listen at. -/
def listenAddress (o : Options) : String := o.host ++ ":" ++ toString o.port.toNat

/-- The destination that is chosen. -/
def destination (o : Options) : Except Misconfiguration Destination :=
  match o.tcpDestination with
  | some host => Destination.tcp? host
  | none => Destination.vsock? o.enclaveCid o.enclavePort

/-- The configuration of a choice, or the first thing that is wrong with it. -/
def configure (o : Options) : Except Misconfiguration Config := do
  let destination ← o.destination
  let maxRequestBytes ← positive "max request bytes" o.maxRequestBytes
  let maxReplyBytes ← positive "max reply bytes" o.maxReplyBytes
  let connect ← positive "connect timeout" o.connectTimeoutMs
  let send ← positive "send timeout" o.sendTimeoutMs
  let receive ← positive "receive timeout" o.receiveTimeoutMs
  return {
    destination, framing := o.framing, jsonMode := o.jsonMode, maxRequestBytes, maxReplyBytes
    connectTimeout := .ofMillis connect, sendTimeout := .ofMillis send
    receiveTimeout := .ofMillis receive }

end Options

/-- The failure of a configuration that is refused. -/
def Misconfiguration.failure (m : Misconfiguration) : Failure := .misconfigured m.message

/-! ## The bound on a task -/

/-- What a task may take beyond the bounds of its stages. -/
def taskGrace : Span := Span.second

/-- The longest that one request may occupy a task, if spans go that far. -/
def Config.taskTimeout? (c : Config) : Option Span := do
  let connectAndSend ← c.connectTimeout.add? c.sendTimeout
  let stages ← connectAndSend.add? c.receiveTimeout
  stages.add? taskGrace

end FramedRelay
