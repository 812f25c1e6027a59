import FramedRelay.Frame.Round
import Mathlib.Data.List.Basic

/-!
# What a link still gives

The answers to reads are a stream of bytes cut into pieces, with interruptions anywhere between
them, up to the first answer that ends it: an empty one, a fault that is no interruption, or the
end of the script. `Link.arrivals` is that stream without the cuts and the interruptions, and
`Link.ending` is what ends it, so every cutting of a stream is a link with the same two.

A read takes its piece off the front of the arrivals, or takes nothing, or meets the ending
(`Link.gives_read`). Setting a timeout, writing and flushing leave both as they are.
-/

namespace FramedRelay

/-- What ends the bytes that a link gives. -/
inductive StreamEnd
  /-- The peer has closed its direction. -/
  | closed
  /-- Reading fails, and not because it was interrupted. -/
  | broken (f : Fault)
  deriving DecidableEq, Repr

/-- The bytes of some answers to reads, up to the first that ends them. -/
def arrivalsOf : List (Answer Bytes) → Bytes
  | [] => []
  | ⟨_, .ok []⟩ :: _ => []
  | ⟨_, .ok (b :: bs)⟩ :: answers => b :: bs ++ arrivalsOf answers
  | ⟨_, .error f⟩ :: answers => if f.isInterruption then arrivalsOf answers else []

/-- What ends the bytes of some answers to reads. -/
def endingOf : List (Answer Bytes) → StreamEnd
  | [] => .closed
  | ⟨_, .ok []⟩ :: _ => .closed
  | ⟨_, .ok (_ :: _)⟩ :: answers => endingOf answers
  | ⟨_, .error f⟩ :: answers => if f.isInterruption then endingOf answers else .broken f

namespace Link

/-- The bytes that a link still gives, however they are cut. -/
def arrivals (l : Link) : Bytes := l.unread ++ arrivalsOf l.reads

/-- What comes after them. -/
def ending (l : Link) : StreamEnd := endingOf l.reads

/-- What a read into `room` bytes comes to, in terms of what the link still gives. -/
inductive Gives (l : Link) (room : Nat) : Except Fault Bytes × Link → Prop
  /-- The next bytes. -/
  | piece {b : UInt8} {bs : Bytes} {m : Link} (hroom : (b :: bs).length ≤ room)
      (harrivals : l.arrivals = b :: bs ++ m.arrivals) (hending : m.ending = l.ending) :
      Gives l room (.ok (b :: bs), m)
  /-- The end of the stream. -/
  | closed {m : Link} (harrivals : l.arrivals = []) (hending : l.ending = .closed) :
      Gives l room (.ok [], m)
  | interrupted {f : Fault} {m : Link} (hf : f.isInterruption = true)
      (harrivals : m.arrivals = l.arrivals) (hending : m.ending = l.ending) :
      Gives l room (.error f, m)
  /-- The fault that ends the stream. -/
  | broken {f : Fault} {m : Link} (hf : f.isInterruption = false) (harrivals : l.arrivals = [])
      (hending : l.ending = .broken f) : Gives l room (.error f, m)

theorem gives_read (l : Link) {room : Nat} (hroom : 0 < room) : l.Gives room (l.read room) := by
  obtain ⟨room, rfl⟩ : ∃ n, room = n + 1 := ⟨room - 1, by omega⟩
  unfold read
  split
  · next b bs hunread =>
    refine .piece (Nat.succ_le_succ (List.length_take_le room bs)) ?_ rfl
    simp only [arrivals, hunread, List.drop_succ_cons, List.cons_append]
    rw [← List.append_assoc, List.take_append_drop]
  · next hunread hreads =>
    exact .closed (by simp [arrivals, arrivalsOf, hunread, hreads])
      (by simp [ending, endingOf, hreads])
  · next delay bs answers hunread hreads =>
    cases bs with
    | nil =>
      exact .closed (by simp [arrivals, arrivalsOf, hunread, hreads])
        (by simp [ending, endingOf, hreads])
    | cons b bs =>
      refine .piece (Nat.succ_le_succ (List.length_take_le room bs)) ?_ ?_
      · simp only [arrivals, arrivalsOf, hunread, hreads, List.drop_succ_cons,
          List.nil_append, List.cons_append]
        rw [← List.append_assoc, List.take_append_drop]
      · simp [ending, endingOf, hreads]
  · next delay f answers hunread hreads =>
    cases hf : f.isInterruption with
    | true =>
      refine .interrupted hf ?_ ?_
      · simp [arrivals, arrivalsOf, hunread, hreads, hf]
      · simp [ending, endingOf, hreads, hf]
    | false =>
      refine .broken hf ?_ ?_
      · simp [arrivals, arrivalsOf, hunread, hreads, hf]
      · simp [ending, endingOf, hreads, hf]

end Link

end FramedRelay
