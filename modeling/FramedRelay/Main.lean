import FramedRelay.Program
import Std.Async.Signal
import Std.Async.TCP
import Std.Async.Timer
import Std.Sync.CancellationToken
import Std.Time

/-!
# The program at work

`main` runs the program on the network. It decides nothing itself: an exchange goes by the steps of
`Stage.step`, before each of which `attend` looks at the clock and lets the connection answer the
operation that comes next, and a request is answered by `Http.begin` and `Http.conclude`. The
program ends when it is interrupted or told to terminate, once the requests that it has begun
with are answered.
-/

open Std.Async

namespace FramedRelay.Program

/-- A connection. -/
abbrev Client := TCP.Socket.Client

/-! ## The system -/

/-- The number of a system error. -/
def systemNumber? : IO.Error → Option UInt32
  | .otherError n _ | .resourceBusy n _ | .resourceVanished n _ | .unsupportedOperation n _
  | .hardwareFault n _ | .unsatisfiedConstraints n _ | .illegalOperation n _
  | .protocolError n _ | .timeExpired n _ => some n
  | .interrupted _ n _ | .noFileOrDirectory _ n _ => some n
  | .alreadyExists _ n _ | .invalidArgument _ n _ | .permissionDenied _ n _
  | .resourceExhausted _ n _ | .inappropriateType _ n _ | .noSuchThing _ n _ => some n
  | .unexpectedEof | .userError _ => none

/-- The fault of a system error, whose number may be negated. -/
def faultOf (e : IO.Error) : Fault :=
  match systemNumber? e with
  | some n => .ofSystem (min n (0 - n)).toNat
  | none => ⟨.other, toString e⟩

/-- An address as the system takes it. -/
def systemAddress : Address.Socket → Std.Net.SocketAddress
  | .v4 host port => .v4 ⟨.ofParts host.a host.b host.c host.d, port⟩
  | .v6 host port _ => .v6 ⟨⟨⟨host.groups.toArray, by simp [host.length_groups]⟩⟩, port⟩

/-- The whole milliseconds that hold a span, as far as timers go. -/
def timerSpan (d : Span) : Std.Time.Millisecond.Offset :=
  .ofNat (min ((d + 999999) / 1000000) (UInt64.size / 4))

/-- The time of day in a format. -/
def timeOfDay (format : String) : IO String := do
  return (Std.Time.DateTime.ofTimestamp (← Std.Time.Timestamp.now) .UTC).format format

/-- The time of day as lines for people show it. -/
def lineTime : IO String := timeOfDay "uuuu-MM-dd'T'HH:mm:ss.SSSSSS'Z'"

/-- The time of day as responses show it. -/
def headerTime : IO String := timeOfDay "EEE, dd MMM uuuu HH:mm:ss 'GMT'"

/-- The variables of the environment that are looked at. -/
def readEnvironment : IO Environment := do
  let names := Setting.all.map (·.variableName)
  (names ++ [filterVariable, plainVariable]).filterMapM fun name => do
    return (← IO.getEnv name).map fun value => (name, Utf8.encode value)

/-- Prints what belongs to the log. -/
def printLog (lines : String) : IO Unit := do
  let stdout ← IO.getStdout
  stdout.putStr lines
  stdout.flush

/-! ## Connections -/

/-- Reads at most `room` bytes within a span. -/
def receiveWithin (client : Client) (span : Span) (room : Nat) : Async (Except Fault Bytes) := do
  try
    Selectable.one #[
      .case (client.recvSelector (UInt64.ofNat (min room 65536))) fun piece? =>
        return .ok ((piece?.map ByteArray.toList).getD []),
      .case (← Selector.sleep (timerSpan span)) fun _ => return .error (.ofSystem 11)]
  catch e => return .error (faultOf e)

/-- The fault of an action, or of the span that it took longer than. -/
def faultWithin (span : Span) (late : Fault) (action : Async Unit) : Async (Option Fault) :=
  Async.race
    (try do action; return none
      catch e => return some (faultOf e))
    (do sleep (timerSpan span); return some late)

/-- Writes bytes within a span. -/
def sendWithin (client : Client) (span : Span) (bs : Bytes) :
    Async (Except Fault (Option Nat)) := do
  match ← faultWithin span (.ofSystem 11) (client.send bs.toByteArray) with
  | none => return .ok none
  | some f => return .error f

/-- Dials addresses in order until one accepts: what it comes to, and the connection. -/
def dial (c : Config) : List Address.Socket → Async (List Attempt × Option Client)
  | [] => return ([], none)
  | address :: rest => do
    let client ← TCP.Socket.Client.mk
    let late : Fault := ⟨.timedOut, "connection timed out"⟩
    match ← faultWithin c.connectTimeout late (client.connect (systemAddress address)) with
    | none =>
      client.noDelay
      return ([{ address := address.display, outcome := .ok { } }], some client)
    | some f =>
      let (attempts, client?) ← dial c rest
      return ({ address := address.display, outcome := .error f } :: attempts, client?)

/-- Dials a destination. -/
def connect (c : Config) : Async (List Attempt × Option Client) :=
  match c.destination with
  | .vsock .. => return ([{ address := "", outcome := .error (.ofSystem 97) }], none)
  | .tcp _ addresses => dial c addresses

/-- The stage of an exchange at the time that it is, with the answer of its connection to what
comes next. -/
def attend (client : Client) : Stage → Async Stage
  | .sending d (b :: left) link => do
    let link := { link with clock := ← IO.monoNanosNow }
    match d.left? link.clock with
    | none => return .sending d (b :: left) link
    | some span =>
      let result ← sendWithin client span (b :: left)
      return .sending d (b :: left) { link with writes := [{ result }] }
  | .receiving d state link => do
    let link := { link with clock := ← IO.monoNanosNow }
    match d.left? link.clock, link.unread with
    | some span, [] =>
      let result ← receiveWithin client span state.room
      return .receiving d state { link with reads := [{ result }] }
    | _, _ => return .receiving d state link
  | stage => return stage

/-! ## Requests -/

/-- What all connections share. -/
structure Server where
  ready : Ready
  openConnections : IO.Ref Nat
  /-- Cancelled when the program is to stop. -/
  stop : Std.CancellationToken

namespace Server

/-- Reports events that belong to a request for a target, with a payload of some size. -/
def note (s : Server) (target : String) (size : Nat) (es : List Event) : IO Unit := do
  printLog ((s.ready.dated (← lineTime)).requestLines target size es)

/-- Takes the steps of an exchange to its end. -/
partial def follow (s : Server) (target : String) (payload : Bytes) (client? : Option Client)
    (stage : Stage) : Async (Except Stop Bytes) := do
  match stage.result? with
  | some result => return result
  | none =>
    let stage ← match client? with
      | some client => attend client stage
      | none => pure stage
    let move := stage.step s.ready.config payload
    s.note target payload.length move.events
    s.openConnections.modify move.effect.apply
    if move.effect = .released then
      if let some client := client? then
        try client.shutdown catch _ => pure ()
    s.follow target payload client? move.stage

/-- The exchange of a payload. -/
def converse (s : Server) (target : String) (payload : Bytes) : Async (Except Stop Bytes) := do
  let (attempts, client?) ← connect s.ready.config
  s.follow target payload client? (.dialling (← IO.monoNanosNow) attempts none)

/-- The reply to a payload, within the bound on a task. -/
def forward (s : Server) (target : String) (payload : Bytes) : Async (Except Failure Bytes) := do
  let c := s.ready.config
  let bound := c.taskTimeout?.getD (UInt64.size / 4)
  let result? ← Async.race (some <$> s.converse target payload)
    (do sleep (timerSpan bound); return none)
  let (result, events) := match result? with
    | some result => Config.report result
    | none => (.error c.expiry, c.expiryEvents)
  s.note target payload.length events
  return result

/-- The answer to a request. -/
def answer (s : Server) (request : Http.Request) : Async Http.Response := do
  match Http.begin s.ready.config (← s.openConnections.get) request with
  | (.respond response, events) =>
    s.note request.target 0 events
    return response
  | (.forward payload, events) =>
    s.note request.target payload.length events
    let (response, last) := Http.conclude request (← s.forward request.target payload)
    s.note request.target payload.length last
    return response

/-- Sends a message. -/
def reply (client : Client) (m : Http.Message) : Async Unit := do
  let dated := { m with headers := m.headers ++ [("date", ← headerTime)] }
  client.send dated.encode.toByteArray

/-- Reads until there are as many bytes as wanted, or no more. -/
partial def fill (client : Client) (wanted : Nat) (bs : Bytes) : Async Bytes := do
  if wanted ≤ bs.length then return bs
  match ← client.recv? 65536 with
  | none => return bs
  | some piece => fill client wanted (bs ++ piece.toList)

/-- The most bytes that the head of a request may have. -/
def headLimit : Nat := 400 * 1024

/-- Answers the requests on a connection, of which `bs` has come. -/
partial def serve (s : Server) (client : Client) (bs : Bytes) : Async Unit := do
  match Http.parseHead? bs with
  | some (some (head, rest)) =>
    let length := (head.bodyLength?).getD 0
    let limit := s.ready.config.maxRequestBytes
    let wanted := if limit < length then 0 else length
    if head.headers.mentions "expect" "100-continue" ∧ rest.length < wanted then
      client.send "HTTP/1.1 100 Continue\r\n\r\n".toUTF8
    let rest ← fill client wanted rest
    match head.request? rest with
    | none => reply client .badRequest
    | some request =>
      let stopping ← s.stop.isCancelled
      let kept := head.keepsAlive ∧ wanted = length ∧ !stopping
      let response ← s.answer request
      reply client (response.message head.version kept)
      if kept then s.serve client (rest.drop length) else client.shutdown
  | some none =>
    reply client .badRequest
    client.shutdown
  | none =>
    if headLimit < bs.length then
      reply client .badRequest
      client.shutdown
    else
      let piece? ← Selectable.one #[
        .case (client.recvSelector 65536) pure,
        .case s.stop.selector fun _ => return none]
      match piece? with
      | none => client.shutdown
      | some piece => s.serve client (bs ++ piece.toList)

/-! ## The program -/

/-- Takes connections until the program is to stop, and then waits for those that are left. -/
partial def accept (s : Server) (listener : TCP.Socket.Server) (tasks : List (AsyncTask Unit)) :
    Async Unit := do
  let client? ← Selectable.one #[
    .case listener.acceptSelector fun client => return some client,
    .case s.stop.selector fun _ => return none]
  match client? with
  | none => for task in tasks do try await task catch _ => pure ()
  | some client =>
    let task ← async (s.serve client [])
    s.accept listener (task :: (← tasks.filterM fun task => return !(← IO.hasFinished task)))

/-- Waits until the program is told to stop. -/
def awaitSignal (s : Server) : Async Unit := do
  let interrupt ← Signal.Waiter.mk .sigint false
  let terminate ← Signal.Waiter.mk .sigterm false
  discard <| Async.race (await (← interrupt.wait)) (await (← terminate.wait))
  printLog ((s.ready.dated (← lineTime)).line .shutdownRequested)
  s.stop.cancel

end Server

/-- Listens at the first of some addresses that lets it. -/
def listen : List Address.Socket → IO (Except Fault TCP.Socket.Server)
  | [] => return .error .noAddress
  | address :: rest => do
    try
      let listener ← TCP.Socket.Server.mk
      listener.bind (systemAddress address)
      listener.listen 1024
      return .ok listener
    catch e =>
      match rest with
      | [] => return .error (faultOf e)
      | rest => listen rest

/-- Prints how the program has ended. -/
def finish (e : Ending) : IO UInt32 := do
  printLog e.stdout
  (← IO.getStderr).putStr e.stderr
  return UInt32.ofNat e.code

/-- Listens, and serves until it is told to stop. -/
def work (ready : Ready) : IO UInt32 := do
  match Destination.resolve ready.options.listenAddress.toList with
  | .error reason => finish (ready.unbound reason.message)
  | .ok addresses =>
    match ← listen addresses with
    | .error f => finish (ready.unbound f.text)
    | .ok listener =>
      let port := match ← listener.getSockName with
        | .v4 a => a.port
        | .v6 a => a.port
      discard <| finish ready.printed
      printLog ((ready.dated (← lineTime)).listening port)
      let openConnections ← IO.mkRef 0
      let stop ← Std.CancellationToken.new
      let s : Server := { ready, openConnections, stop }
      discard <| s.awaitSignal.toIO
      (s.accept listener []).block
      printLog ((ready.dated (← lineTime)).line .stopped)
      return 0

end FramedRelay.Program

open FramedRelay.Program in
/-- Runs the program with some arguments. -/
def main (arguments : List String) : IO UInt32 := do
  match FramedRelay.Program.prologue (← lineTime) (arguments.map FramedRelay.Utf8.encode)
      (← readEnvironment) with
  | .error ending => finish ending
  | .ok ready => work ready
