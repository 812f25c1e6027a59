import FramedRelay.Frame.Receive
import FramedRelay.Frame.Send
import FramedRelay.Options

/-!
# Exchanges

An `Exchange` is one payload on its way to the destination and its reply on the way back, over a
connection of its own. It dials the addresses in order until one accepts, sends the payload as one
frame, receives one reply, and releases the connection whatever came of it. Each stage but the
first has the deadline that the configuration sets.

`Exchange.step` does one thing at a time, so that exchanges can take turns; `Exchange.run` goes
on to the end. A step says when it opens a connection and when it releases one (`Effect`).
-/

namespace FramedRelay

/-- What dialling one address comes to. -/
structure Attempt where
  address : String
  delay : Span := 0
  outcome : Except Fault Link

/-- Where an exchange stands. -/
inductive Stage
  /-- These addresses are left to dial; the last one dialled was at fault. -/
  | dialling (clock : Instant) (left : List Attempt) (last? : Option Fault)
  /-- These bytes of the frame are left to send. -/
  | sending (d : Deadline) (left : Bytes) (link : Link)
  | receiving (d : Deadline) (state : Receiving) (link : Link)
  /-- The outcome is known, and the connection still held. -/
  | releasing (result : Except Stop Bytes) (link : Link)
  /-- At the end, with the connection that was released if there was one. -/
  | ended (result : Except Stop Bytes) (clock : Instant) (link? : Option Link)

/-- What a step does to the connections that are open. -/
inductive Effect
  | none
  | opened
  | released
  deriving DecidableEq, Repr

/-- One payload and its reply. -/
structure Exchange where
  payload : Bytes
  stage : Stage

namespace Stage

/-- The time that it is for an exchange. -/
def clock : Stage → Instant
  | dialling clock .. => clock
  | sending _ _ link | receiving _ _ link | releasing _ link => link.clock
  | ended _ clock _ => clock

/-- The connection held. -/
def link? : Stage → Option Link
  | sending _ _ link | receiving _ _ link | releasing _ link => some link
  | dialling .. | ended .. => none

/-- A connection is held. -/
def isOpen (s : Stage) : Bool := s.link?.isSome

/-- The outcome, once the connection is released. -/
def result? : Stage → Option (Except Stop Bytes)
  | ended result .. => some result
  | _ => none

/-- What is left to do, the stage first and then what bounds the steps within it. -/
def measure : Stage → Nat × Nat × Nat
  | dialling _ left _ => (4, left.length, 0)
  | sending _ left link => (3, link.writes.length, left.length)
  | receiving _ _ link => (2, link.reads.length, link.unread.length)
  | releasing .. => (1, 0, 0)
  | ended .. => (0, 0, 0)

end Stage

/-- The fault of a destination without addresses. -/
def Fault.noAddress : Fault := ⟨.addressNotAvailable, "no addresses to connect to"⟩

/-- The failure of connecting that ends in a fault. -/
def Destination.connectFailure (d : Destination) (f : Fault) : Failure :=
  if f.isTimeout then .timedOut ("connecting to " ++ d.display) else .connectFailed f.text

/-- What there is to report about an address that cannot be connected to. -/
def Destination.addressEvents (d : Destination) (a : Attempt) (f : Fault) : List Event :=
  match d with
  | .vsock .. => []
  | .tcp .. => [.addressFailed a.address f.text]

/-- A step of an exchange: the stage after it, what there is to report, and what it does to the
connections that are open. -/
structure Move where
  stage : Stage
  events : List Event := []
  effect : Effect := .none

namespace Stage

/-- A connection is accepted. -/
def connect (c : Config) (payload : Bytes) (link : Link) : Move :=
  let events := [.connected c.destination.display]
  match Deadline.start? link.clock c.sendTimeout "sending request" with
  | none => ⟨releasing (.error (.abort .clockOverflow)) link, events, .opened⟩
  | some d => ⟨sending d (c.framing.encode payload) link, events, .opened⟩

/-- The frame is sent. -/
def await (c : Config) (link : Link) (events : List Event) : Move :=
  match Deadline.start? link.clock c.receiveTimeout "waiting for reply" with
  | none => ⟨releasing (.error (.abort .clockOverflow)) link, events, .none⟩
  | some d => ⟨receiving d (.start c.framing) link, events, .none⟩

/-- The connection is given up. -/
def release (result : Except Stop Bytes) (link : Link) : Move :=
  match link.shutdown with
  | (.ok (), link) => ⟨ended result link.clock (some link), [], .released⟩
  | (.error f, link) =>
    ⟨ended result link.clock (some link), [.shutdownFailed f.text], .released⟩

/-- One step. -/
def step (c : Config) (payload : Bytes) : Stage → Move
  | dialling clock [] last? =>
    let f := last?.getD .noAddress
    ⟨ended (.error (.failure (c.destination.connectFailure f))) clock none, [], .none⟩
  | dialling clock (a :: left) _ =>
    let clock := clock + a.delay
    match a.outcome with
    | .ok link => connect c payload { link with clock }
    | .error f => ⟨dialling clock left (some f), c.destination.addressEvents a f, .none⟩
  | sending d left link =>
    match Sending.step d (c.framing.encode payload).length left link with
    | ⟨.again left, link, events⟩ => ⟨sending d left link, events, .none⟩
    | ⟨.ended (.ok ()), link, events⟩ => await c link events
    | ⟨.ended (.error stop), link, events⟩ => ⟨releasing (.error stop) link, events, .none⟩
  | receiving d state link =>
    match state.step c.maxReplyBytes d link with
    | ⟨.again state, link, events⟩ => ⟨receiving d state link, events, .none⟩
    | ⟨.ended (.ok reply), link, events⟩ =>
      ⟨releasing (.ok reply) link,
        events ++ [.replyReceived reply.length c.destination.display], .none⟩
    | ⟨.ended (.error stop), link, events⟩ => ⟨releasing (.error stop) link, events, .none⟩
  | releasing result link => release result link
  | ended result clock link? => ⟨ended result clock link?, [], .none⟩

/-- The order in which steps go down. -/
def Before : Nat × Nat × Nat → Nat × Nat × Nat → Prop :=
  Prod.Lex (· < ·) (Prod.Lex (· < ·) (· < ·))

theorem wellFounded_before : WellFounded Before :=
  (Prod.lex Nat.lt_wfRel (Prod.lex Nat.lt_wfRel Nat.lt_wfRel)).wf

theorem before_iff {a b : Nat × Nat × Nat} :
    Before a b ↔ a.1 < b.1 ∨ a.1 = b.1 ∧ (a.2.1 < b.2.1 ∨ a.2.1 = b.2.1 ∧ a.2.2 < b.2.2) := by
  simp [Before, Prod.lex_def]

/-- Every step before the end leaves less to do. -/
theorem measure_step (c : Config) (payload : Bytes) {s : Stage} (h : s.result? = none) :
    Before (s.step c payload).stage.measure s.measure := by
  rw [before_iff]
  cases s with
  | dialling clock left last? =>
    cases left with
    | nil => simp [step, measure]
    | cons a left =>
      simp only [step]
      split
      · simp only [connect]
        split <;> simp [measure]
      · simp [measure]
  | sending d left link =>
    simp only [step]
    split
    · next h => simpa [measure] using Sending.step_again_lt h
    · simp only [await]
      split <;> simp [measure]
    · simp [measure]
  | receiving d state link =>
    simp only [step]
    split
    · next h => simpa [measure] using Receiving.step_again_lt h
    · simp [measure]
    · simp [measure]
  | releasing result link =>
    simp only [step, release]
    split <;> simp [measure]
  | ended result clock link? => simp [result?] at h

/-- Takes steps while `more` holds, to the end at most: the stage there, what there is to report,
and what the steps do to the connections that are open. -/
def advance (c : Config) (payload : Bytes) (more : Stage → Bool) (s : Stage) :
    Stage × List Event × List Effect :=
  match h : s.result? with
  | some _ => (s, [], [])
  | none =>
    if more s then
      have := before_iff.1 (measure_step c payload h)
      let move := s.step c payload
      let (last, events, effects) := advance c payload more move.stage
      (last, move.events ++ events, move.effect :: effects)
    else (s, [], [])
termination_by s.measure
decreasing_by
  simp only [Prod.lex_def]
  assumption

/-- Takes all steps: the stage at the end, and what there is to report. -/
def run (c : Config) (payload : Bytes) (s : Stage) : Stage × List Event :=
  let (last, events, _) := s.advance c payload fun _ => true
  (last, events)

/-- The steps end with an outcome. -/
theorem isSome_result?_run (c : Config) (payload : Bytes) (s : Stage) :
    (s.run c payload).1.result?.isSome := by
  unfold run
  fun_induction advance c payload (fun _ => true) s with
  | case1 s result h => simp [h]
  | case2 s h _ _ move last events effects hrun ih => simpa [move, hrun] using ih
  | case3 s h hmore => simp at hmore

/-- The outcome that the steps come to. -/
def outcome (c : Config) (payload : Bytes) (s : Stage) : Except Stop Bytes :=
  (s.run c payload).1.result?.get (isSome_result?_run c payload s)

end Stage

namespace Exchange

/-- An exchange that has not begun. -/
def start (payload : Bytes) (clock : Instant) (attempts : List Attempt) : Exchange :=
  ⟨payload, .dialling clock attempts none⟩

/-- One step. -/
def step (c : Config) (x : Exchange) : Exchange × List Event × Effect :=
  let move := x.stage.step c x.payload
  ({ x with stage := move.stage }, move.events, move.effect)

/-- All steps. -/
def run (c : Config) (x : Exchange) : Exchange × List Event :=
  let (stage, events) := x.stage.run c x.payload
  ({ x with stage }, events)

end Exchange

/-! ## Forwarding -/

/-- The exchange of a payload, when dialling comes to `attempts`. -/
def exchange (c : Config) (payload : Bytes) (attempts : List Attempt) : Exchange × List Event :=
  (Exchange.start payload 0 attempts).run c

/-- The reply to a payload, when dialling comes to `attempts`. -/
def forward (c : Config) (payload : Bytes) (attempts : List Attempt) : Except Stop Bytes :=
  (Exchange.start payload 0 attempts).stage.outcome c payload

end FramedRelay
