import FramedRelay.CommandLine.Parse
import FramedRelay.Http.Message
import FramedRelay.Http.Service
import FramedRelay.Log.Line
import FramedRelay.Peer

/-!
# The program

What a run of the program prints and how it ends. `prologue` goes from the arguments and the
environment to a configuration, or to an end before there is one. `run` is a whole run in known
surroundings: the ports that others listen on, a destination that follows a script, and the
requests that come before the program is told to stop.
-/

namespace FramedRelay

/-- What a program has printed, and the code with which it has ended. -/
structure Ending where
  stdout : String := ""
  stderr : String := ""
  code : Nat := 0
  deriving DecidableEq, Repr

namespace Program

/-- The log of a run: how it is written, and when. -/
structure Journal where
  style : Log.Style
  /-- What stands for the time in lines for people. -/
  time : String

/-- The lines of events that belong to no request. -/
def Journal.lines (j : Journal) (es : List Event) : String :=
  j.style.lines j.time (fun _ => []) es

/-- The variable that chooses the filter of the log. -/
def filterVariable : String := "RUST_LOG"

/-- The variable that takes the colours from the log, unless its value is empty. -/
def plainVariable : String := "NO_COLOR"

/-- The filter that the environment chooses. -/
def filterOf (env : Environment) : Log.Filter :=
  match (env.get? filterVariable).bind Utf8.decode? with
  | some text => .parse text
  | none => .standard

/-- How the log is written under some options and an environment. -/
def styleOf (o : Options) (env : Environment) : Log.Style where
  format := o.logFormat
  filter := filterOf env
  coloured := o.logFormat == .pretty &&
    (((env.get? plainVariable).bind Utf8.decode?).getD "").isEmpty

/-- A failure of the whole program, with its cause. -/
def failureText (context cause : String) : String :=
  let indented := String.ofList (cause.toList.flatMap fun c =>
    if c = '\n' then "\n    ".toList else [c])
  "Error: " ++ context ++ "\n\nCaused by:\n    " ++ indented ++ "\n"

/-- A program that is ready to listen, with what it has printed. -/
structure Ready where
  options : Options
  config : Config
  journal : Journal
  printed : Ending

/-- From the arguments and the environment to a configuration. -/
def prologue (time : String) (arguments : List Bytes) (env : Environment) :
    Except Ending Ready :=
  match CommandLine.parse arguments env with
  | .error d =>
    if d.isAnswer then .error { stdout := d.message env }
    else .error { stderr := d.message env, code := 2 }
  | .ok o =>
    let journal : Journal := ⟨styleOf o env, time⟩
    let stdout := journal.lines [.optionsRead (Log.describeOptions o)]
    let stderr := String.join (journal.style.filter.ignored.map Log.ignoredText)
    match o.configure with
    | .error m =>
      .error { stdout, code := 1
               stderr := stderr ++ failureText "invalid bridge configuration" m.failure.message }
    | .ok c =>
      let chosen : Event := .destinationChosen c.destination.display
        (Log.capitalized c.framing.name) (Log.capitalized c.jsonMode.name)
      .ok { options := o, config := c, journal
            printed := { stdout := stdout ++ journal.lines [chosen], stderr } }

/-- The program cannot listen. -/
def Ready.unbound (r : Ready) (reason : String) : Ending :=
  let failure := failureText ("unable to bind " ++ r.options.listenAddress) reason
  { r.printed with stderr := r.printed.stderr ++ failure, code := 1 }

/-- The line of an event that belongs to no request. -/
def Ready.line (r : Ready) (e : Event) : String := r.journal.lines [e]

/-- The program has begun to listen at a port. -/
def Ready.listening (r : Ready) (port : UInt16) : String :=
  r.line (.listening r.options.host (toString port.toNat))

/-- The lines of events that belong to a request for a target, with a payload of some size. -/
def Ready.requestLines (r : Ready) (target : String) (size : Nat) (es : List Event) : String :=
  r.journal.style.lines r.journal.time (Log.spansOf r.config target size) es

/-- The program at another time. -/
def Ready.dated (r : Ready) (time : String) : Ready :=
  { r with journal := { r.journal with time } }

/-! ## A run in known surroundings -/

/-- What a run meets on a machine that can be reached at its loopback addresses alone. -/
structure Surroundings where
  /-- The ports that others listen at. -/
  taken : List UInt16 := []
  /-- The port that is given if any will do. -/
  free : UInt16
  /-- The port of the scripted destination. -/
  destination : UInt16
  scripts : List Script := []
  /-- What is sent on each connection. -/
  requests : List Bytes := []

/-- A finished run. -/
structure Transcript where
  ending : Ending
  responses : List Http.Message := []

namespace Surroundings

/-- The host at which others listen. -/
def loopback : Address.Ipv4 := ⟨127, 0, 0, 1⟩

/-- The host that stands for all hosts of the machine. -/
def anyHost : Address.Ipv4 := ⟨0, 0, 0, 0⟩

/-- The peer of a run with a configuration. -/
def peer (s : Surroundings) (c : Config) : Peer where
  contacts := match c.destination with
    | .vsock .. => [.unreachable]
    | .tcp _ addresses => addresses.map fun a =>
      if a = .v4 loopback s.destination then .live else .refused a
  scripts := s.scripts

/-- Why an address cannot be listened at. -/
def bindFault? (s : Surroundings) : Address.Socket → Option Fault
  | .v4 host port =>
    if host ≠ anyHost ∧ host.a ≠ 127 then some (.ofSystem 99)
    else if (host = anyHost ∨ host = loopback) ∧ port ∈ s.destination :: s.taken then
      some (.ofSystem 98)
    else none
  | .v6 host port _ =>
    if host.groups = [0, 0, 0, 0, 0, 0, 0, 0] then
      if port ∈ s.destination :: s.taken then some (.ofSystem 98) else none
    else if host.groups = [0, 0, 0, 0, 0, 0, 0, 1] then none
    else some (.ofSystem 99)

/-- The port to listen at, or why there is none. -/
def bind (s : Surroundings) (o : Options) : Except String UInt16 :=
  match Destination.resolve o.listenAddress.toList with
  | .error reason => .error reason.message
  | .ok addresses =>
    match addresses.findSome? s.bindFault? with
    | some f => .error f.text
    | none => .ok (if o.port = 0 then s.free else o.port)

end Surroundings

/-- A request that was sent, if it is well formed. -/
def requestOf? (sent : Bytes) : Option (Http.Head × Http.Request) := do
  let (head, rest) ← (← Http.parseHead? sent)
  return (head, ← head.request? rest)

/-- Answers what is sent on one connection, `accepted` connections having been made before: the
response, what is printed, and the connections made by then. -/
def Ready.answer (r : Ready) (peer : Peer) (accepted : Nat) (sent : Bytes) :
    Http.Message × String × Nat :=
  match requestOf? sent with
  | none => (.badRequest, "", accepted)
  | some (head, request) =>
    match Http.begin r.config 0 request with
    | (.respond response, events) =>
      (response.message head.version head.keepsAlive, r.requestLines request.target 0 events,
        accepted)
    | (.forward payload, events) =>
      let attempts := peer.attempts r.config payload accepted
      let (result, later) := forwardBounded r.config payload attempts
      let (response, last) := Http.conclude request result
      let made := attempts.any fun a => a.outcome.toBool
      (response.message head.version head.keepsAlive,
        r.requestLines request.target payload.length (events ++ later ++ last),
        if made then accepted + 1 else accepted)

/-- Answers what is sent on each connection in turn. -/
def Ready.answerAll (r : Ready) (peer : Peer) : Nat → List Bytes → List Http.Message × String
  | _, [] => ([], "")
  | accepted, sent :: rest =>
    let (response, lines, accepted) := r.answer peer accepted sent
    let (responses, later) := r.answerAll peer accepted rest
    (response :: responses, lines ++ later)

/-- A whole run. -/
def run (s : Surroundings) (time : String) (arguments : List Bytes) (env : Environment) :
    Transcript :=
  match prologue time arguments env with
  | .error ending => { ending }
  | .ok r =>
    match s.bind r.options with
    | .error reason => { ending := r.unbound reason }
    | .ok port =>
      let (responses, lines) := r.answerAll (s.peer r.config) 0 s.requests
      let last := r.line .shutdownRequested ++ r.line .stopped
      let stdout := r.printed.stdout ++ r.listening port ++ lines ++ last
      { ending := { r.printed with stdout }, responses }

end Program

end FramedRelay
