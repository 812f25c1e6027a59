/-!
# Failures

Everything that can go wrong for a caller is one `Failure`, a cause with its data; the wording is
`Failure.message` alone. Each cause has a wording that starts differently, so the message tells
the causes apart.
-/

namespace FramedRelay

/-- Why a request has no reply, or why the relay cannot start. -/
inductive Failure
  | connectFailed (reason : String)
  | sendFailed (reason : String)
  | receiveFailed (reason : String)
  | replyTooLarge (size limit : Nat)
  | timedOut (stage : String)
  | malformedInput (reason : String)
  | requestTooLarge (size limit : Nat)
  | internal (reason : String)
  | misconfigured (reason : String)
  deriving DecidableEq, Repr

/-- The wording of a failure. -/
def Failure.message : Failure → String
  | .connectFailed reason => "connect failed: " ++ reason
  | .sendFailed reason => "send failed: " ++ reason
  | .receiveFailed reason => "receive failed: " ++ reason
  | .replyTooLarge size limit =>
    "reply too large: " ++ toString size ++ " bytes exceeds maximum of " ++ toString limit ++
      " bytes"
  | .timedOut stage => "timed out " ++ stage
  | .malformedInput reason => "malformed input: " ++ reason
  | .requestTooLarge size limit =>
    "request too large: " ++ toString size ++ " bytes exceeds maximum of " ++ toString limit ++
      " bytes"
  | .internal reason => "internal error: " ++ reason
  | .misconfigured reason => "configuration error: " ++ reason

/-! ## Aborts -/

/-- Why a computation is abandoned without an answer. -/
inductive Abort
  /-- A buffer of more than `2 ^ 63 - 1` bytes was asked for. -/
  | capacityOverflow
  /-- An instant beyond the clock's range was asked for. -/
  | clockOverflow
  /-- A span beyond the range of spans was asked for. -/
  | spanOverflow
  deriving DecidableEq, Repr

/-- The wording of an abort. -/
def Abort.message : Abort → String
  | .capacityOverflow => "capacity overflow"
  | .clockOverflow => "overflow when adding duration to instant"
  | .spanOverflow => "overflow when adding durations"

/-- How a computation ends that does not succeed. -/
inductive Stop
  | failure (f : Failure)
  | abort (a : Abort)
  deriving DecidableEq, Repr

end FramedRelay
