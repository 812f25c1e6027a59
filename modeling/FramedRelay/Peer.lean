import FramedRelay.Exchange

/-!
# Scripted peers

A `Peer` is a destination that follows a script on each connection: it reads one frame, sends a
reply or none, and then closes its half of the connection or stays silent until the relay gives
up. `Peer.attempts` is what dialling the addresses of such a destination comes to.
-/

namespace FramedRelay

/-- What a peer sends back. -/
inductive Reply
  | bytes (bs : Bytes)
  /-- The frame that it has read. -/
  | echo
  deriving DecidableEq, Repr

/-- What a peer does on a connection. -/
structure Script where
  reply? : Option Reply := none
  close : Bool := false
  deriving DecidableEq, Repr

/-- An address of a destination. -/
inductive Contact
  /-- The peer accepts connections. -/
  | live
  /-- Connecting never comes to an end. -/
  | full
  /-- Nothing listens at this address. -/
  | refused (address : Address.Socket)
  /-- The destination is on this host, where nothing of its kind can be reached. -/
  | unreachable
  deriving DecidableEq, Repr

/-- The frame at the front of what a peer has read. -/
def Framing.firstFrame : Framing → Bytes → Bytes
  | .newline, bs => bs.takeWhile (· != lineFeed) ++ (bs.dropWhile (· != lineFeed)).take 1
  | .lengthPrefixed, bs =>
    bs.take (headerSize + Bytes.ofLittleEndian (bs.take headerSize))

namespace Script

/-- What a peer sends once it has read a frame. -/
def sent (s : Script) (frame : Bytes) : Bytes :=
  match s.reply? with
  | none => []
  | some (.bytes bs) => bs
  | some .echo => frame

/-- Nothing comes until the relay has waited for as long as it waits for a reply. -/
def silence (c : Config) : Answer Bytes := ⟨c.receiveTimeout, .error (.ofSystem 11)⟩

/-- A connection on which a peer follows a script, for a payload. -/
def link (s : Script) (c : Config) (payload : Bytes) : Link :=
  let bytes := s.sent (c.framing.firstFrame (c.framing.encode payload))
  let reply := if bytes.isEmpty then [] else [{ result := .ok bytes }]
  { reads := reply ++ if s.close then [] else [silence c] }

end Script

/-- What dialling an address comes to, if the peer would follow `script`. -/
def Contact.attempt (c : Config) (payload : Bytes) (script : Script) : Contact → Attempt
  | .live => { address := c.destination.display, outcome := .ok (script.link c payload) }
  | .full =>
    { address := c.destination.display, delay := c.connectTimeout
      outcome := .error ⟨.timedOut, "connection timed out"⟩ }
  | .refused address => { address := address.display, outcome := .error (.ofSystem 111) }
  | .unreachable => { address := "", outcome := .error (.ofSystem 97) }

/-- A destination that follows scripts. -/
structure Peer where
  contacts : List Contact := [.live]
  /-- What it does on each connection; the last script goes on. -/
  scripts : List Script := []
  deriving DecidableEq, Repr

namespace Peer

/-- What the peer does on the connection with a number. -/
def script (p : Peer) (connection : Nat) : Script :=
  match p.scripts[connection]? with
  | some s => s
  | none => p.scripts.getLast?.getD { }

/-- What dialling comes to, for a payload, when `accepted` connections were accepted before. -/
def attempts (p : Peer) (c : Config) (payload : Bytes) (accepted : Nat) : List Attempt :=
  p.contacts.map (Contact.attempt c payload (p.script accepted))

end Peer

end FramedRelay
