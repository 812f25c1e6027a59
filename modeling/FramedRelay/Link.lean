import FramedRelay.Bytes
import FramedRelay.Clock
import FramedRelay.Fault

/-!
# Links

A `Link` is one end of a connection with everything the other end and the system are going to do
to it: a list of answers for each kind of operation, each with the time that it takes. An
operation takes the next answer of its kind; when none is left, timeouts can be set, all bytes on
offer are accepted, and reading finds the end of the stream.

A link also holds what has happened to it: the clock, the bytes it has accepted, and the
operations so far (`Operation`), the latest first.
-/

namespace FramedRelay

/-- What an operation is going to do, and how long it takes. -/
structure Answer (α : Type) where
  delay : Span := 0
  result : Except Fault α

/-- The two directions of a link. -/
inductive Direction
  | read | write
  deriving DecidableEq, Repr

/-- An operation on a link, with its outcome. -/
inductive Operation
  /-- At `clock`, the timeout of one direction was set to `span?`, or taken away. -/
  | arm (direction : Direction) (span? : Option Span) (clock : Instant) (done : Bool)
  /-- A read into `room` bytes gave `count?` bytes. -/
  | read (room : Nat) (count? : Option Nat)
  /-- A write of `offered` bytes accepted `count?` bytes. -/
  | write (offered : Nat) (count? : Option Nat)
  | flush (done : Bool)
  /-- Both directions were closed. -/
  | shutdown (done : Bool)
  deriving DecidableEq, Repr

/-- One end of a connection. -/
structure Link where
  clock : Instant := 0
  /-- The bytes left of an answer that a read did not have room for. -/
  unread : Bytes := []
  reads : List (Answer Bytes) := []
  /-- How many bytes each write accepts at most; all of them without a number. -/
  writes : List (Answer (Option Nat)) := []
  flushes : List (Answer Unit) := []
  arms : List (Answer Unit) := []
  /-- Why closing the link fails, if it does. -/
  shutdownFault? : Option Fault := none
  /-- The pieces accepted, the latest first. -/
  pieces : List Bytes := []
  /-- The operations, the latest first. -/
  history : List Operation := []

namespace Link

/-- The bytes accepted, in order. -/
def written (l : Link) : Bytes := l.pieces.reverse.flatten

/-- The operations, in order. -/
def operations (l : Link) : List Operation := l.history.reverse

/-- The link with nothing on its record. -/
def cleared (l : Link) : Link := { l with pieces := [], history := [] }

/-! ## Operations -/

/-- Sets the timeout of one direction, or takes it away. -/
def arm (l : Link) (direction : Direction) (span? : Option Span) : Except Fault Unit × Link :=
  let record (done : Bool) := Operation.arm direction span? l.clock done :: l.history
  match l.arms with
  | [] => (.ok (), { l with history := record true })
  | ⟨delay, .ok ()⟩ :: arms =>
    (.ok (), { l with clock := l.clock + delay, arms, history := record true })
  | ⟨delay, .error f⟩ :: arms =>
    (.error f, { l with clock := l.clock + delay, arms, history := record false })

/-- Reads at most `room` bytes; none at the end of the stream. -/
def read (l : Link) (room : Nat) : Except Fault Bytes × Link :=
  let take (l : Link) (bs : Bytes) : Except Fault Bytes × Link :=
    let piece := bs.take room
    (.ok piece,
      { l with unread := bs.drop room, history := .read room (some piece.length) :: l.history })
  match l.unread, l.reads with
  | b :: bs, _ => take l (b :: bs)
  | [], [] => take l []
  | [], ⟨delay, .ok bs⟩ :: reads => take { l with clock := l.clock + delay, reads } bs
  | [], ⟨delay, .error f⟩ :: reads =>
    (.error f, { l with
      clock := l.clock + delay, reads, history := .read room none :: l.history })

/-- Offers bytes: how many of the first ones are accepted. -/
def write (l : Link) (offered : Bytes) : Except Fault Nat × Link :=
  let accept (l : Link) (count : Nat) : Except Fault Nat × Link :=
    (.ok count, { l with
      pieces := offered.take count :: l.pieces
      history := .write offered.length (some count) :: l.history })
  match l.writes with
  | [] => accept l offered.length
  | ⟨delay, .ok limit?⟩ :: writes =>
    accept { l with clock := l.clock + delay, writes }
      (min (limit?.getD offered.length) offered.length)
  | ⟨delay, .error f⟩ :: writes =>
    (.error f, { l with
      clock := l.clock + delay, writes, history := .write offered.length none :: l.history })

/-- Pushes on what was accepted. -/
def flush (l : Link) : Except Fault Unit × Link :=
  match l.flushes with
  | [] => (.ok (), { l with history := .flush true :: l.history })
  | ⟨delay, .ok ()⟩ :: flushes =>
    (.ok (), { l with
      clock := l.clock + delay, flushes, history := .flush true :: l.history })
  | ⟨delay, .error f⟩ :: flushes =>
    (.error f, { l with
      clock := l.clock + delay, flushes, history := .flush false :: l.history })

/-- Closes both directions. -/
def shutdown (l : Link) : Except Fault Unit × Link :=
  match l.shutdownFault? with
  | none => (.ok (), { l with history := .shutdown true :: l.history })
  | some f => (.error f, { l with history := .shutdown false :: l.history })

/-! ## What is left to read -/

/-- A read that gives bytes takes an answer, or bytes left of one. -/
theorem backlog_of_read_cons {l l' : Link} {room : Nat} {b : UInt8} {bs : Bytes}
    (h : l.read room = (.ok (b :: bs), l')) :
    l'.reads.length < l.reads.length ∨
      l'.reads.length = l.reads.length ∧ l'.unread.length < l.unread.length := by
  unfold Link.read at h
  cases room with
  | zero => grind
  | succ room =>
    split at h
    · simp only [Prod.mk.injEq] at h
      obtain ⟨-, rfl⟩ := h
      exact Or.inr ⟨rfl, by grind⟩
    · simp at h
    · simp only [Prod.mk.injEq] at h
      obtain ⟨-, rfl⟩ := h
      left
      simp_all
    · simp at h

/-- A read that is met with a fault takes an answer. -/
theorem backlog_of_read_error {l l' : Link} {room : Nat} {f : Fault}
    (h : l.read room = (.error f, l')) : l'.reads.length < l.reads.length := by
  unfold Link.read at h
  split at h
  · simp at h
  · simp at h
  · simp at h
  · simp only [Prod.mk.injEq] at h
    obtain ⟨-, rfl⟩ := h
    simp_all

end Link

end FramedRelay
