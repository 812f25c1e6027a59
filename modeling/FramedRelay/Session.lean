import FramedRelay.Http.Service
import FramedRelay.Peer

/-!
# Sessions

A `Session` is a forwarder at work against a scripted peer. What is asked of it is a `Query`: a
request to the service, a payload to forward within the bound on a task, or a payload to forward
without that bound. A query is put and answered at once, or put, left waiting for the reply, and
answered later, or left waiting for longer than the bound. Each of these gives a `Report`.
-/

namespace FramedRelay

/-- What is asked of a session. -/
inductive Query
  | request (r : Http.Request)
  | payload (bs : Bytes)
  /-- To be forwarded without the bound on a task. -/
  | unbounded (bs : Bytes)
  deriving DecidableEq, Repr

/-- What a query is told. -/
inductive Told
  | response (r : Http.Response)
  | reply (result : Except Stop Bytes)

/-- A query that waits for its reply. -/
structure Waiting where
  name : String
  query : Query
  job : Nat
  connection : Nat

/-- A forwarder and its peer. -/
structure Session where
  forwarder : Forwarder
  peer : Peer
  /-- The connections accepted so far. -/
  accepted : Nat := 0
  waiting : List Waiting := []

/-- What there is to tell after a query. -/
structure Report where
  /-- Nothing if the query is left waiting. -/
  told? : Option Told
  /-- The connection on which a query is left waiting. -/
  started? : Option Nat := none
  /-- The connections that were open when the bound was exceeded. -/
  openAtTimeout? : Option Nat := none
  openConnections : Nat
  accepted : Nat
  /-- The connections that were closed, with the bytes that they accepted. -/
  closed : List (Nat × Bytes) := []

namespace Session

/-- A forwarder that nothing has happened to. -/
def new (c : Config) (peer : Peer) : Session := { forwarder := .new c, peer }

/-- A report on the session as it is. -/
def report (s : Session) (told? : Option Told) (closed : List (Nat × Bytes) := []) : Report :=
  { told?, openConnections := s.forwarder.openConnections, accepted := s.accepted
    closed := closed.filter fun c => !c.2.isEmpty }

/-! ## Exchanges -/

/-- The stage of a job. -/
def stage? (s : Session) (job : Nat) : Option Stage :=
  (s.forwarder.jobs[job]?).map fun j => j.exchange.stage

/-- Nothing of the reply has been read. -/
def beforeReply : Stage → Bool
  | .dialling .. | .sending .. => true
  | _ => false

/-- Takes steps of a job while `more` holds. -/
def advance (s : Session) (more : Stage → Bool) (job : Nat) : Session :=
  { s with forwarder := (s.forwarder.advance more job).1 }

/-- Tells the caller of a job that it took too long, if it has not ended. -/
def expire (s : Session) (job : Nat) : Session :=
  { s with forwarder := (s.forwarder.expire job).1 }

/-- Starts the exchange of a payload. -/
def put (s : Session) (payload : Bytes) : Session × Nat :=
  let attempts := s.peer.attempts s.forwarder.config payload s.accepted
  ({ s with forwarder := s.forwarder.start payload 0 attempts }, s.forwarder.jobs.length)

/-- Counts the connection that a job has come to hold, if it has. -/
def count (s : Session) (job : Nat) : Session :=
  match s.stage? job with
  | some (.ended _ _ none) => s
  | some (.dialling ..) => s
  | some _ => { s with accepted := s.accepted + 1 }
  | none => s

/-- Takes the steps of a job to its end, telling its caller if it takes too long. -/
def finish (s : Session) (bounded : Bool) (job : Nat) : Session :=
  match bounded, s.forwarder.config.taskTimeout? with
  | true, some bound =>
    let s := (s.advance (fun stage => stage.clock ≤ bound) job).expire job
    s.advance (fun _ => true) job
  | _, _ => s.advance (fun _ => true) job

/-- The connection of a job that has ended, with the bytes that it accepted. -/
def closedBy (s : Session) (job connection : Nat) : List (Nat × Bytes) :=
  match s.stage? job with
  | some (.ended _ _ (some link)) => [(connection, link.written)]
  | _ => []

/-- What a query whose payload was forwarded is told, once that is known. -/
def tell (s : Session) (query : Query) (job : Nat) : Option Told :=
  match query with
  | .unbounded _ => ((s.stage? job).bind Stage.result?).map .reply
  | .payload _ =>
    (s.forwarder.answer? job).map fun result => .reply (result.mapError .failure)
  | .request r =>
    (s.forwarder.answer? job).map fun result => .response (Http.conclude r result).1

/-! ## Queries -/

/-- What becomes of a query. -/
def verdict (s : Session) : Query → Http.Verdict
  | .request r => (Http.begin s.forwarder.config s.forwarder.openConnections r).1
  | .payload bs | .unbounded bs => .forward bs

/-- The query is forwarded within the bound on a task. -/
def isBounded : Query → Bool
  | .unbounded _ => false
  | _ => true

/-- Puts a query, and answers it. -/
def call (s : Session) (query : Query) : Session × Report :=
  match s.verdict query with
  | .respond response => (s, s.report (some (.response response)))
  | .forward payload =>
    let connection := s.accepted
    let (s, job) := s.put payload
    let s := (s.finish (isBounded query) job).count job
    (s, s.report (s.tell query job) (s.closedBy job connection))

/-- Puts a query, and leaves it waiting for its reply. -/
def start (s : Session) (name : String) (query : Query) : Session × Report :=
  match s.verdict query with
  | .respond response => (s, s.report (some (.response response)))
  | .forward payload =>
    let connection := s.accepted
    let (s, job) := s.put payload
    let s := (s.advance beforeReply job).count job
    let s := { s with waiting := s.waiting ++ [{ name, query, job, connection }] }
    (s, { s.report none with started? := some connection })

/-- Answers a query that was left waiting. -/
def resume (s : Session) (name : String) : Session × Report :=
  match s.waiting.find? fun w => w.name == name with
  | none => (s, s.report none)
  | some w =>
    let s := s.finish (isBounded w.query) w.job
    let s := { s with waiting := s.waiting.filter fun v => v.name != name }
    (s, s.report (s.tell w.query w.job) (s.closedBy w.job w.connection))

/-- Puts a query, and lets more time pass than the bound on a task before it is answered. -/
def overrun (s : Session) (query : Query) : Session × Report :=
  match s.verdict query with
  | .respond response => (s, s.report (some (.response response)))
  | .forward payload =>
    let connection := s.accepted
    let (s, job) := s.put payload
    let s := (s.advance beforeReply job).count job
    let held := s.forwarder.openConnections
    let s := (job :: s.waiting.map Waiting.job).foldl expire s
    let s := s.advance (fun _ => true) job
    let report := s.report (s.tell query job) (s.closedBy job connection)
    (s, { report with openAtTimeout? := some held })

end Session

end FramedRelay
