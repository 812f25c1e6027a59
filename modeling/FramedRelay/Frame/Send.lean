import FramedRelay.Frame.Encoding
import FramedRelay.Frame.Round

/-!
# Sending a frame

`send` writes the frame of a payload, as much at a time as the link accepts, and flushes after
the last byte. It fails at the first thing that is decisive: the deadline, a timeout that cannot
be set, a write that accepts nothing, a fault other than an interruption, or the flush.
-/

namespace FramedRelay

namespace Sending

/-- The round that flushes, after the last of `size` bytes. -/
def flush (d : Deadline) (size : Nat) (l : Link) : Progress Bytes Unit :=
  match l.flush with
  | (.ok (), l) => .ok l () [.frameSent size]
  | (.error f, l) => .fail l (d.failureOf .write f)

/-- A round that offers the bytes left. -/
def offer (d : Deadline) (left : Bytes) (l : Link) : Progress Bytes Unit :=
  match l.ready d .write with
  | (.error failure, l) => .fail l failure
  | (.ok (), l) =>
    match l.write left with
    | (.ok 0, l) => .fail l (.sendFailed "connection closed while sending")
    | (.ok count, l) => .again l (left.drop count)
    | (.error f, l) => if f.isInterruption then .again l left else .fail l (d.failureOf .write f)

/-- One round, from the bytes left of a frame of `size` bytes. -/
def step (d : Deadline) (size : Nat) (left : Bytes) (l : Link) : Progress Bytes Unit :=
  match left with
  | [] => flush d size l
  | b :: bs => offer d (b :: bs) l

/-- Setting a timeout leaves the answers to writes. -/
theorem writes_ready (l : Link) (d : Deadline) (direction : Direction) :
    (l.ready d direction).2.writes = l.writes := by
  unfold Link.ready Link.arm
  repeat' split
  all_goals simp_all
  all_goals grind

/-- A round that is not the last takes an answer to a write or takes bytes from those left. -/
theorem step_again_lt {d : Deadline} {size : Nat} {left left' : Bytes} {l l' : Link}
    {events : List Event} (h : step d size left l = ⟨.again left', l', events⟩) :
    l'.writes.length < l.writes.length ∨
      l'.writes.length = l.writes.length ∧ left'.length < left.length := by
  have hw := writes_ready l d .write
  unfold step flush offer Progress.again Progress.ok Progress.fail Link.write at h
  grind

/-- The rounds that send the bytes left of a frame of `size` bytes. -/
def run (d : Deadline) (size : Nat) (left : Bytes) (l : Link) :
    Except Stop Unit × Link × List Event :=
  match h : step d size left l with
  | ⟨.ended result, l', events⟩ => (result, l', events)
  | ⟨.again left', l', events⟩ =>
    have := step_again_lt h
    let (result, l'', later) := run d size left' l'
    (result, l'', events ++ later)
termination_by (l.writes.length, left.length)
decreasing_by
  simp only [Prod.lex_def]
  omega

end Sending

/-- Sends a payload as one frame. -/
def send (framing : Framing) (payload : Bytes) (d : Deadline) (l : Link) :
    Except Stop Unit × Link × List Event :=
  let frame := framing.encode payload
  Sending.run d frame.length frame l

end FramedRelay
