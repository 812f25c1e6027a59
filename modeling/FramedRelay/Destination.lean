import FramedRelay.Address.Host
import FramedRelay.Text.Blank
import FramedRelay.Text.Decimal

/-!
# Destinations

Where requests are sent: a port of another machine on this host, given by its context number, or
the addresses of a TCP host and port. `Destination.tcp?` reads the latter, as a written socket
address if it is one, and otherwise as a numeric host and a port with the last colon between them.
-/

namespace FramedRelay

/-- Where requests are sent. -/
inductive Destination
  | vsock (cid port : UInt32)
  | tcp (host : String) (addresses : List Address.Socket)
  deriving DecidableEq, Repr

/-- Why a text gives no address to connect to. -/
inductive Unresolved
  | noPort
  | badPort
  | nulInHost
  | unknownHost
  deriving DecidableEq, Repr

/-- The wording of a reason. -/
def Unresolved.message : Unresolved → String
  | .noPort => "invalid socket address"
  | .badPort => "invalid port value"
  | .nulInHost => "file name contained an unexpected NUL byte"
  | .unknownHost => "failed to lookup address information: Name or service not known"

/-- Why a configuration is refused. -/
inductive Misconfiguration
  | wildcardCid (cid : UInt32)
  | wildcardPort (port : UInt32)
  | emptyDestination
  | unresolved (host : String) (reason : Unresolved)
  | zero (setting : String)
  deriving DecidableEq, Repr

/-- The wording of a refusal. -/
def Misconfiguration.message : Misconfiguration → String
  | .wildcardCid cid =>
    "enclave CID " ++ toString cid.toNat ++
      " is the wildcard address and cannot be connected to"
  | .wildcardPort port =>
    "enclave port " ++ toString port.toNat ++ " is the wildcard port and cannot be connected to"
  | .emptyDestination => "TCP destination must not be empty"
  | .unresolved host reason =>
    "unable to resolve TCP destination " ++ host ++ ": " ++ reason.message
  | .zero setting => setting ++ " must be greater than zero"

namespace Destination

/-- The number that stands for every context, and the one that stands for every port. -/
def wildcard : UInt32 := 0xFFFFFFFF

/-- A port of another machine on this host. -/
def vsock? (cid port : UInt32) : Except Misconfiguration Destination :=
  if cid = wildcard then .error (.wildcardCid cid)
  else if port = wildcard then .error (.wildcardPort port)
  else .ok (.vsock cid port)

/-- What comes before and after the last occurrence of a character. -/
def splitLast? (c : Char) (cs : List Char) : Option (List Char × List Char) :=
  let after := cs.reverse.takeWhile (· != c)
  match cs.reverse.dropWhile (· != c) with
  | [] => none
  | _ :: before => some (before.reverse, after.reverse)

/-- The addresses of a host and a port. -/
def resolve (cs : List Char) : Except Unresolved (List Address.Socket) :=
  match Address.Socket.parse? cs with
  | some a => .ok [a]
  | none =>
    match splitLast? ':' cs with
    | none => .error .noPort
    | some (host, port) =>
      match Decimal.read UInt16.size port with
      | .error _ => .error .badPort
      | .ok port =>
        if '\x00' ∈ host then .error .nulInHost
        else match Address.Socket.ofName? host (UInt16.ofNat port) with
          | some a => .ok [a]
          | none => .error .unknownHost

/-- A TCP host and port, with blanks around them or none. -/
def tcp? (s : String) : Except Misconfiguration Destination :=
  let cs := trimBlanks s.toList
  let host := String.ofList cs
  if cs.isEmpty then .error .emptyDestination
  else match resolve cs with
    | .ok addresses => .ok (.tcp host addresses)
    | .error reason => .error (.unresolved host reason)

/-- The written form. -/
def display : Destination → String
  | vsock cid port => "vsock://" ++ toString cid.toNat ++ ":" ++ toString port.toNat
  | tcp host _ => "tcp://" ++ host

end Destination

end FramedRelay
