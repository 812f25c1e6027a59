import FramedRelay.Exchange

/-!
# The forwarder

A `Forwarder` holds all exchanges that were ever started and the number of connections that are
open. Exchanges are numbered in the order of their start. What can happen to a forwarder is a
`Happening`: an exchange starts, takes a step, or has its caller told that it took too long, in
which case it goes on alone. The number of open connections changes only as the steps say.

`answer` is what the caller of an exchange is told: the outcome if it came within the bound, and
otherwise that forwarding timed out. `forwardBounded` is the answer to one exchange by itself.
-/

namespace FramedRelay

/-- An exchange with a caller who waits for it. -/
structure Job where
  exchange : Exchange
  /-- The caller has been told that it took too long. -/
  expired : Bool := false

/-- All exchanges, and the connections they hold. -/
structure Forwarder where
  config : Config
  openConnections : Nat := 0
  jobs : List Job := []

/-- What can happen to a forwarder. -/
inductive Happening
  | start (payload : Bytes) (clock : Instant) (attempts : List Attempt)
  | step (job : Nat)
  | expire (job : Nat)

/-- The number of open connections after a step. -/
def Effect.apply : Effect → Nat → Nat
  | .none, n => n
  | .opened, n => n + 1
  | .released, n => n - 1

namespace Config

/-- The failure of an exchange that takes too long. -/
def expiry (c : Config) : Failure := .timedOut ("forwarding to " ++ c.destination.display)

/-- What the caller of a finished exchange is told of its outcome. -/
def report : Except Stop Bytes → Except Failure Bytes × List Event
  | .ok reply => (.ok reply, [])
  | .error (.failure f) => (.error f, [])
  | .error (.abort a) =>
    (.error (.internal "forwarding task did not complete"), [.taskFailed a])

/-- What the caller is told of an exchange that takes too long. -/
def expiryEvents (c : Config) : List Event :=
  match c.taskTimeout? with
  | some bound => [.boundExceeded c.destination.display bound]
  | none => []

end Config

namespace Forwarder

/-- A forwarder that nothing has happened to. -/
def new (config : Config) : Forwarder := { config }

/-- An exchange starts. -/
def start (f : Forwarder) (payload : Bytes) (clock : Instant) (attempts : List Attempt) :
    Forwarder :=
  { f with jobs := f.jobs ++ [{ exchange := .start payload clock attempts }] }

/-- An exchange takes a step. -/
def step (f : Forwarder) (i : Nat) : Forwarder × List Event :=
  match f.jobs[i]? with
  | none => (f, [])
  | some job =>
    let (exchange, events, effect) := job.exchange.step f.config
    ({ f with
        openConnections := effect.apply f.openConnections
        jobs := f.jobs.set i { job with exchange } }, events)

/-- The caller of an exchange that has not ended is told that it took too long. -/
def expire (f : Forwarder) (i : Nat) : Forwarder × List Event :=
  match f.jobs[i]? with
  | none => (f, [])
  | some job =>
    if job.expired ∨ job.exchange.stage.result?.isSome then (f, [])
    else ({ f with jobs := f.jobs.set i { job with expired := true } }, f.config.expiryEvents)

/-- Something happens. -/
def happen (f : Forwarder) : Happening → Forwarder × List Event
  | .start payload clock attempts => (f.start payload clock attempts, [])
  | .step i => f.step i
  | .expire i => f.expire i

/-- The forwarder after some happenings. -/
def after (f : Forwarder) (hs : List Happening) : Forwarder :=
  hs.foldl (fun f h => (f.happen h).1) f

/-- What the caller of an exchange is told, once that is known. -/
def answer? (f : Forwarder) (i : Nat) : Option (Except Failure Bytes) :=
  (f.jobs[i]?).bind fun job =>
    if job.expired then some (.error f.config.expiry)
    else job.exchange.stage.result?.map fun result => (Config.report result).1

/-- An exchange takes steps while `more` holds, to its end at most. -/
def advance (f : Forwarder) (more : Stage → Bool) (i : Nat) : Forwarder × List Event :=
  match f.jobs[i]? with
  | none => (f, [])
  | some job =>
    let (stage, events, effects) := job.exchange.stage.advance f.config job.exchange.payload more
    let exchange := { job.exchange with stage }
    ({ f with
        openConnections := effects.foldl (fun n e => e.apply n) f.openConnections
        jobs := f.jobs.set i { job with exchange } }, events)

end Forwarder

/-! ## One exchange by itself -/

/-- What the caller of one exchange is told, and what there is to report: the outcome if it comes
within the bound on a task. -/
def forwardBounded (c : Config) (payload : Bytes) (attempts : List Attempt) :
    Except Failure Bytes × List Event :=
  let (x, events) := exchange c payload attempts
  match c.taskTimeout? with
  | none => (.error (.internal Abort.spanOverflow.message), [])
  | some bound =>
    if bound < x.stage.clock then (.error c.expiry, events ++ c.expiryEvents)
    else
      let (result, later) := Config.report (forward c payload attempts)
      (result, events ++ later)

end FramedRelay
