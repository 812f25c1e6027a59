import FramedRelay.Options
import FramedRelay.Text.Utf8

/-!
# Settings

A `Setting` is one of the choices in `Options`, as the command line and the environment name it.
`Setting.assign` reads a value for it and puts it in its place: texts as they are, numbers in
decimal within the range of their type, and choices by their name.
-/

namespace FramedRelay

/-- One of the choices in `Options`. -/
inductive Setting
  | host | port | enclaveCid | enclavePort | tcpDestination | framing | jsonMode
  | maxRequestBytes | maxReplyBytes | connectTimeoutMs | sendTimeoutMs | receiveTimeoutMs
  | logFormat
  deriving DecidableEq, Repr

/-- A value that can be chosen, and what it means. -/
structure Choice where
  name : String
  meaning : String
  deriving DecidableEq, Repr

namespace Setting

/-- All settings, in the order in which they are explained. -/
def all : List Setting :=
  [host, port, enclaveCid, enclavePort, tcpDestination, framing, jsonMode, maxRequestBytes,
    maxReplyBytes, connectTimeoutMs, sendTimeoutMs, receiveTimeoutMs, logFormat]

/-- The name of a setting as an argument, without the dashes before it. -/
def flag : Setting → String
  | host => "host"
  | port => "port"
  | enclaveCid => "enclave-cid"
  | enclavePort => "enclave-port"
  | tcpDestination => "tcp-destination"
  | framing => "framing"
  | jsonMode => "json-mode"
  | maxRequestBytes => "max-request-bytes"
  | maxReplyBytes => "max-reply-bytes"
  | connectTimeoutMs => "connect-timeout-ms"
  | sendTimeoutMs => "send-timeout-ms"
  | receiveTimeoutMs => "receive-timeout-ms"
  | logFormat => "log-format"

/-- The name of the environment variable of a setting. -/
def variableName : Setting → String
  | host => "BRIDGE_HTTP_HOST"
  | port => "BRIDGE_HTTP_PORT"
  | enclaveCid => "BRIDGE_ENCLAVE_CID"
  | enclavePort => "BRIDGE_ENCLAVE_PORT"
  | tcpDestination => "BRIDGE_TCP_DESTINATION"
  | framing => "BRIDGE_FRAMING"
  | jsonMode => "BRIDGE_JSON_MODE"
  | maxRequestBytes => "BRIDGE_MAX_REQUEST_BYTES"
  | maxReplyBytes => "BRIDGE_MAX_REPLY_BYTES"
  | connectTimeoutMs => "BRIDGE_CONNECT_TIMEOUT_MS"
  | sendTimeoutMs => "BRIDGE_SEND_TIMEOUT_MS"
  | receiveTimeoutMs => "BRIDGE_RECEIVE_TIMEOUT_MS"
  | logFormat => "BRIDGE_LOG_FORMAT"

/-- The values that can be chosen, if they are listed. -/
def choices : Setting → List Choice
  | framing =>
    [⟨Framing.newline.name, "Payload followed by a single `\\n`"⟩,
     ⟨Framing.lengthPrefixed.name, "8-byte little-endian length header followed by the payload"⟩]
  | jsonMode =>
    [⟨JsonMode.passthrough.name, "Forward the body byte-for-byte"⟩,
     ⟨JsonMode.validate.name, "Reject bodies that are not well-formed JSON"⟩,
     ⟨JsonMode.compact.name, "Re-serialize the body as single-line JSON"⟩]
  | logFormat =>
    [⟨LogFormat.json.name, "One JSON object per line, for log shipping"⟩,
     ⟨LogFormat.pretty.name, "Human-readable output for local development"⟩]
  | _ => []

/-- The value of a setting in some options, as it would be written. -/
def render (o : Options) : Setting → Option String
  | host => some o.host
  | port => some (toString o.port.toNat)
  | enclaveCid => some (toString o.enclaveCid.toNat)
  | enclavePort => some (toString o.enclavePort.toNat)
  | tcpDestination => o.tcpDestination
  | framing => some o.framing.name
  | jsonMode => some o.jsonMode.name
  | maxRequestBytes => some (toString o.maxRequestBytes.toNat)
  | maxReplyBytes => some (toString o.maxReplyBytes.toNat)
  | connectTimeoutMs => some (toString o.connectTimeoutMs.toNat)
  | sendTimeoutMs => some (toString o.sendTimeoutMs.toNat)
  | receiveTimeoutMs => some (toString o.receiveTimeoutMs.toNat)
  | logFormat => some o.logFormat.name

/-! ## Values -/

/-- Why a value is refused. -/
inductive Refusal
  | notText
  | notListed
  | badNumber (fault : Decimal.Fault)
  | outOfRange (n : Int) (greatest : Nat)
  deriving DecidableEq, Repr

/-- A value that must be text. -/
def text (value : Bytes) : Except Refusal String :=
  match Utf8.decode? value with
  | some s => .ok s
  | none => .error .notText

/-- A number up to `greatest`, which a signed 64-bit number can hold. -/
def ranged (greatest : Nat) (value : Bytes) : Except Refusal Nat := do
  let s ← text value
  match Decimal.readSigned s.toList with
  | .error f => .error (.badNumber f)
  | .ok n => if 0 ≤ n ∧ n ≤ greatest then .ok n.toNat else .error (.outOfRange n greatest)

/-- A number of 64 bits. -/
def wide (value : Bytes) : Except Refusal Nat := do
  let s ← text value
  match Decimal.read UInt64.size s.toList with
  | .error f => .error (.badNumber f)
  | .ok n => .ok n

/-- One of some values, by its name. -/
def chosen {α : Type} (name : α → String) (values : List α) (value : Bytes) : Except Refusal α :=
  match values.find? fun v => Utf8.encode (name v) == value with
  | some v => .ok v
  | none => .error .notListed

/-- Reads the value of a setting and puts it in its place. -/
def assign (s : Setting) (value : Bytes) (o : Options) : Except Refusal Options :=
  match s with
  | host => (text value).map fun v => { o with host := v }
  | port => (ranged 65535 value).map fun v => { o with port := UInt16.ofNat v }
  | enclaveCid => (ranged 4294967295 value).map fun v => { o with enclaveCid := UInt32.ofNat v }
  | enclavePort => (ranged 4294967295 value).map fun v => { o with enclavePort := UInt32.ofNat v }
  | tcpDestination => (text value).map fun v => { o with tcpDestination := some v }
  | framing =>
    (chosen Framing.name [.newline, .lengthPrefixed] value).map fun v => { o with framing := v }
  | jsonMode =>
    (chosen JsonMode.name [.passthrough, .validate, .compact] value).map fun v =>
      { o with jsonMode := v }
  | maxRequestBytes => (wide value).map fun v => { o with maxRequestBytes := UInt64.ofNat v }
  | maxReplyBytes => (wide value).map fun v => { o with maxReplyBytes := UInt64.ofNat v }
  | connectTimeoutMs => (wide value).map fun v => { o with connectTimeoutMs := UInt64.ofNat v }
  | sendTimeoutMs => (wide value).map fun v => { o with sendTimeoutMs := UInt64.ofNat v }
  | receiveTimeoutMs => (wide value).map fun v => { o with receiveTimeoutMs := UInt64.ofNat v }
  | logFormat =>
    (chosen LogFormat.name [.json, .pretty] value).map fun v => { o with logFormat := v }

/-- A setting as an argument with its value, for messages. -/
def usage (s : Setting) : String :=
  "--" ++ s.flag ++ " <" ++ String.ofList (s.flag.toList.map fun c =>
    if c = '-' then '_' else c.toUpper) ++ ">"

end Setting

end FramedRelay
