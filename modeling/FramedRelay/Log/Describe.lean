import FramedRelay.Json.Print
import FramedRelay.Options

/-!
# Values in events

How choices and options are written in events: names of choices in one word, texts in quotes with
everything escaped that would not show as itself, and options with all their fields.
-/

namespace FramedRelay.Log

/-- A character shows as itself. -/
def isPlain (c : Char) : Bool :=
  let n := c.toNat
  (0x20 ≤ n && n ≤ 0x7E) ||
    (0xA1 ≤ n && n != 0xAD && !(0x300 ≤ n && n ≤ 0x36F) && !(0x2000 ≤ n && n ≤ 0x200F) &&
      !(0x2028 ≤ n && n ≤ 0x202F) && !(0x205F ≤ n && n ≤ 0x206F) &&
      n != 0x1680 && n != 0x3000 &&
      !(0xE000 ≤ n && n ≤ 0xF8FF) && !(0xFE00 ≤ n && n ≤ 0xFE0F) && n != 0xFEFF &&
      !(0xFFF0 ≤ n && n ≤ 0xFFFB) && n < 0xE0000)

/-- A number in hexadecimal between braces. -/
def codeText (n : Nat) : List Char :=
  '\\' :: 'u' :: Char.ofNat 0x7B :: Nat.toDigits 16 n ++ [Char.ofNat 0x7D]

/-- A character between quotes. -/
def escapeChar (c : Char) : List Char :=
  match c with
  | '\x00' => ['\\', '0']
  | '\t' => ['\\', 't']
  | '\n' => ['\\', 'n']
  | '\r' => ['\\', 'r']
  | '"' => ['\\', '"']
  | '\\' => ['\\', '\\']
  | c => if isPlain c then [c] else codeText c.toNat

/-- A text in quotes. -/
def quoted (s : String) : String :=
  String.ofList ('"' :: s.toList.flatMap escapeChar ++ ['"'])

/-- A name in one word, each part of it with a capital letter. -/
def capitalized (name : String) : String :=
  String.join ((name.splitOn "-").map String.capitalize)

/-- All options. -/
def describeOptions (o : Options) : String :=
  let fields := [
    ("host", quoted o.host),
    ("port", toString o.port.toNat),
    ("enclave_cid", toString o.enclaveCid.toNat),
    ("enclave_port", toString o.enclavePort.toNat),
    ("tcp_destination", match o.tcpDestination with
      | some s => "Some(" ++ quoted s ++ ")"
      | none => "None"),
    ("framing", capitalized o.framing.name),
    ("json_mode", capitalized o.jsonMode.name),
    ("max_request_bytes", toString o.maxRequestBytes.toNat),
    ("max_reply_bytes", toString o.maxReplyBytes.toNat),
    ("connect_timeout_ms", toString o.connectTimeoutMs.toNat),
    ("send_timeout_ms", toString o.sendTimeoutMs.toNat),
    ("receive_timeout_ms", toString o.receiveTimeoutMs.toNat),
    ("log_format", capitalized o.logFormat.name)]
  "BridgeOptions \x7b " ++ ", ".intercalate (fields.map fun f => f.1 ++ ": " ++ f.2) ++ " \x7d"

end FramedRelay.Log
