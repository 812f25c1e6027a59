import FramedRelay.Frame.Encoding
import FramedRelay.Frame.Round

/-!
# Receiving a frame

`receive` reads one reply off a link.

Under newline framing the reply is what comes before the first line feed, or before the end of
the stream, without the blanks at its end. It is read in pieces of up to `pieceSize` bytes; what
comes with the line feed but after it is dropped. The reply is too large as soon as the bytes so
far exceed the limit.

Under length-prefixed framing the header is read first, and nothing more if the length in it
exceeds the limit; then exactly as many bytes as it announces.
-/

namespace FramedRelay

/-- The most that is read at a time under newline framing. -/
def pieceSize : Nat := 4096

/-- A buffer of this size cannot be had. -/
def bufferLimit : Nat := UInt64.size / 2

/-- How far a reply has been received. -/
inductive Receiving
  /-- These bytes have come, and no line feed. -/
  | line (reply : Bytes)
  /-- These bytes of the header have come. -/
  | header (got : Bytes)
  /-- These bytes have come of the `size` bytes announced. -/
  | body (size : Nat) (got : Bytes)
  deriving DecidableEq, Repr

namespace Receiving

/-- Nothing has come. -/
def start : Framing → Receiving
  | .newline => .line []
  | .lengthPrefixed => .header []

/-- The most that the next read may give. -/
def room : Receiving → Nat
  | .line _ => pieceSize
  | .header got => headerSize - got.length
  | .body size got => size - got.length

/-- The end of the stream. -/
def atEnd (l : Link) : Receiving → Progress Receiving Bytes
  | .line reply =>
    let event := if reply.isEmpty then .closedWithoutReply else .closedWithoutDelimiter
    let reply := reply.trimEnd
    .ok l reply [event, .replyRead reply.length]
  | .header got => .fail l (shortOf got headerSize)
  | .body size got => .fail l (shortOf got size)
where
  /-- The stream ended within `size` bytes that must come. -/
  shortOf (got : Bytes) (size : Nat) : Failure :=
    .receiveFailed ("connection closed after " ++ toString got.length ++ " of " ++
      toString size ++ " frame bytes")

/-- A piece of a reply that ends with a line feed, after the bytes `reply`. -/
def takeLine (limit : Nat) (l : Link) (reply piece : Bytes) : Progress Receiving Bytes :=
  let part := piece.takeWhile (· != lineFeed)
  let surplus := piece.length - part.length - 1
  let events := if 0 < surplus then [.surplusDiscarded surplus] else []
  let reply := reply ++ part
  if limit < reply.length then .fail l (.replyTooLarge reply.length limit) events
  else if part.length < piece.length then
    let reply := reply.trimEnd
    .ok l reply (events ++ [.replyRead reply.length])
  else .again l (.line reply) events

/-- The whole header has come. -/
def takeHeader (limit : Nat) (l : Link) (header : Bytes) : Progress Receiving Bytes :=
  let size := Bytes.ofLittleEndian header
  if limit < size then .fail l (.replyTooLarge size limit)
  else if bufferLimit ≤ size then .abort l .capacityOverflow
  else if size = 0 then .ok l [] [.replyRead 0]
  else .again l (.body size [])

/-- A piece that is not empty has come. -/
def take (limit : Nat) (l : Link) (piece : Bytes) : Receiving → Progress Receiving Bytes
  | .line reply => takeLine limit l reply piece
  | .header got =>
    let got := got ++ piece
    if got.length < headerSize then .again l (.header got) else takeHeader limit l got
  | .body size got =>
    let got := got ++ piece
    if got.length < size then .again l (.body size got) else .ok l got [.replyRead got.length]

/-- One round. -/
def step (limit : Nat) (d : Deadline) (s : Receiving) (l : Link) : Progress Receiving Bytes :=
  match l.ready d .read with
  | (.error failure, l) => .fail l failure
  | (.ok (), l) =>
    match l.read s.room with
    | (.ok [], l) => s.atEnd l
    | (.ok (b :: bs), l) => s.take limit l (b :: bs)
    | (.error f, l) => if f.isInterruption then .again l s else .fail l (d.failureOf .read f)

/-- Setting a timeout leaves what there is to read. -/
theorem reads_ready (l : Link) (d : Deadline) (direction : Direction) :
    (l.ready d direction).2.reads = l.reads ∧ (l.ready d direction).2.unread = l.unread := by
  unfold Link.ready Link.arm
  repeat' split
  all_goals simp_all
  all_goals grind

/-- Taking a piece leaves the link. -/
theorem link_take (limit : Nat) (l : Link) (piece : Bytes) (s : Receiving) :
    (s.take limit l piece).link = l := by
  unfold take takeLine takeHeader Progress.again Progress.ok Progress.fail Progress.abort
  grind

/-- The end of the stream leaves the link and ends the work. -/
theorem atEnd_ended (l : Link) (s : Receiving) :
    (s.atEnd l).link = l ∧ ∃ result, (s.atEnd l).round = .ended result := by
  cases s <;> exact ⟨rfl, _, rfl⟩

/-- A round that is not the last takes an answer to a read or bytes left of one. -/
theorem step_again_lt {limit : Nat} {d : Deadline} {s s' : Receiving} {l l' : Link}
    {events : List Event} (h : step limit d s l = ⟨.again s', l', events⟩) :
    l'.reads.length < l.reads.length ∨
      l'.reads.length = l.reads.length ∧ l'.unread.length < l.unread.length := by
  obtain ⟨hr, hu⟩ := reads_ready l d .read
  unfold step at h
  split at h
  · simp [Progress.fail] at h
  · next l₁ hready =>
    simp only [hready] at hr hu
    split at h
    · next l₂ hread =>
      obtain ⟨result, hended⟩ := (atEnd_ended l₂ s).2
      simp [h] at hended
    · next b bs l₂ hread =>
      have hlink := link_take limit l₂ (b :: bs) s
      simp only [h] at hlink
      subst hlink
      exact hr ▸ hu ▸ Link.backlog_of_read_cons hread
    · next f l₂ hread =>
      have := Link.backlog_of_read_error hread
      split at h
      · simp only [Progress.again, Progress.mk.injEq] at h
        obtain ⟨-, rfl, -⟩ := h
        exact Or.inl (hr ▸ this)
      · simp [Progress.fail] at h

/-- The rounds that receive the rest of a reply. -/
def run (limit : Nat) (d : Deadline) (s : Receiving) (l : Link) :
    Except Stop Bytes × Link × List Event :=
  match h : step limit d s l with
  | ⟨.ended result, l', events⟩ => (result, l', events)
  | ⟨.again s', l', events⟩ =>
    have := step_again_lt h
    let (result, l'', later) := run limit d s' l'
    (result, l'', events ++ later)
termination_by (l.reads.length, l.unread.length)
decreasing_by
  simp only [Prod.lex_def]
  omega

end Receiving

/-- Receives one reply of at most `limit` bytes. -/
def receive (framing : Framing) (limit : Nat) (d : Deadline) (l : Link) :
    Except Stop Bytes × Link × List Event :=
  Receiving.run limit d (.start framing) l

end FramedRelay
