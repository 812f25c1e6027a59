import FramedRelay.Bytes

/-!
# Frames

A frame is how one message travels on a connection. Newline framing ends the message with a line
feed; length-prefixed framing puts the number of its bytes before it, in eight bytes, the lowest
first. `Framing.encode` writes the frame of a message.
-/

namespace FramedRelay

/-- How messages are told apart on a connection. -/
inductive Framing
  | newline
  | lengthPrefixed
  deriving DecidableEq, Repr

/-- The number of bytes that hold the length of a message. -/
def headerSize : Nat := 8

namespace Framing

/-- The name of a framing, as options spell it. -/
def name : Framing → String
  | newline => "newline"
  | lengthPrefixed => "length-prefixed"

/-- The frame of a message. -/
def encode : Framing → Bytes → Bytes
  | newline, payload => payload ++ [lineFeed]
  | lengthPrefixed, payload => Bytes.littleEndian headerSize payload.length ++ payload

theorem length_encode_newline (payload : Bytes) :
    (encode newline payload).length = payload.length + 1 := by
  simp [encode]

theorem length_encode_lengthPrefixed (payload : Bytes) :
    (encode lengthPrefixed payload).length = headerSize + payload.length := by
  simp [encode, Bytes.length_littleEndian]

end Framing

end FramedRelay
