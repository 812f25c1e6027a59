import FramedRelay.Event
import FramedRelay.Link

/-!
# Rounds

Sending and receiving work in rounds. A round looks at the deadline, sets the timeout of its
direction to what is left, and then reads or writes once. It ends the work or says how the next
round goes on (`Round`).
-/

namespace FramedRelay

/-- How a round of work leaves it. -/
inductive Round (σ α : Type)
  /-- The next round starts from here. -/
  | again (state : σ)
  | ended (result : Except Stop α)

/-- A round, with the link after it and what there is to report. -/
structure Progress (σ α : Type) where
  round : Round σ α
  link : Link
  events : List Event := []

namespace Progress

variable {σ τ α : Type}

/-- The work goes on from `state`. -/
def again (link : Link) (state : σ) (events : List Event := []) : Progress σ α :=
  ⟨.again state, link, events⟩

/-- The work has succeeded. -/
def ok (link : Link) (value : α) (events : List Event := []) : Progress σ α :=
  ⟨.ended (.ok value), link, events⟩

/-- The work has failed. -/
def fail (link : Link) (failure : Failure) (events : List Event := []) : Progress σ α :=
  ⟨.ended (.error (.failure failure)), link, events⟩

/-- The work is abandoned. -/
def abort (link : Link) (reason : Abort) (events : List Event := []) : Progress σ α :=
  ⟨.ended (.error (.abort reason)), link, events⟩

end Progress

/-- The failure of a stage that has run out of time. -/
def Deadline.failure (d : Deadline) : Failure := .timedOut d.stage

/-- The failure of sending, or of receiving, for a reason. -/
def Direction.failure : Direction → String → Failure
  | .read, reason => .receiveFailed reason
  | .write, reason => .sendFailed reason

/-- The failure of a read or write that was met with a fault. -/
def Deadline.failureOf (d : Deadline) (direction : Direction) (f : Fault) : Failure :=
  if f.isTimeout then d.failure else direction.failure f.text

/-- Sets the timeout of a direction to what is left of a deadline. -/
def Link.ready (l : Link) (d : Deadline) (direction : Direction) : Except Failure Unit × Link :=
  match d.left? l.clock with
  | none => (.error d.failure, l)
  | some left =>
    match l.arm direction (some left) with
    | (.ok (), l) => (.ok (), l)
    | (.error f, l) => (.error (direction.failure f.text), l)

end FramedRelay
