import FramedRelay.Options
import Mathlib.Tactic.Common

/-!
# Configurations that are accepted

What is known of a configuration that `Options.configure` accepts (`Options.Configured`): it says
what the options say, its numbers are not zero, and each comes of a number of 64 bits. So the
stages are far shorter than the clock's range, and the bound on a task is the sum of the bounds on
its stages and the grace (`Options.Configured.taskTimeout?`).
-/

namespace FramedRelay

theorem Except.bind_ok {ε α β : Type} {x : Except ε α} {f : α → Except ε β} {b : β}
    (h : (x >>= f) = .ok b) : ∃ a, x = .ok a ∧ f a = .ok b := by
  cases x with
  | error e => cases h
  | ok a => exact ⟨a, rfl, h⟩

theorem positive_ok {setting : String} {n : UInt64} {k : Nat} (h : positive setting n = .ok k) :
    k = n.toNat ∧ 0 < n.toNat := by
  unfold positive at h
  split at h
  · cases h
  · next hn =>
    obtain rfl := Except.ok.inj h
    exact ⟨rfl, Nat.pos_of_ne_zero fun hzero => hn (UInt64.toNat_inj.1 hzero)⟩

theorem Span.add?_of_lt {a b : Span} (h : a + b < UInt64.size * second) :
    a.add? b = some (a + b) :=
  if_pos h

theorem Instant.after?_of_lt {t : Instant} {d : Span} (h : t + d < UInt64.size / 2 * Span.second) :
    t.after? d = some (t + d) :=
  if_pos h

/-- A timeout in milliseconds that is not zero. -/
structure Timeout (ms : UInt64) (span : Span) : Prop where
  eq : span = .ofMillis ms.toNat
  pos : 0 < ms.toNat

/-- The longest timeout. -/
def maxTimeout : Span := .ofMillis (UInt64.size - 1)

namespace Timeout

variable {ms : UInt64} {span : Span}

theorem span_pos (h : Timeout ms span) : 0 < span := by
  rw [h.eq]
  exact Nat.mul_pos (by decide) h.pos

theorem le_maxTimeout (h : Timeout ms span) : span ≤ maxTimeout := by
  rw [h.eq]
  exact Nat.mul_le_mul_left _ (Nat.le_sub_one_of_lt ms.toNat_lt)

end Timeout

/-- What a configuration that is accepted has of the options. -/
structure Options.Configured (o : Options) (c : Config) : Prop where
  destination : o.destination = .ok c.destination
  framing : c.framing = o.framing
  jsonMode : c.jsonMode = o.jsonMode
  maxRequestBytes : c.maxRequestBytes = o.maxRequestBytes.toNat ∧ 0 < c.maxRequestBytes
  maxReplyBytes : c.maxReplyBytes = o.maxReplyBytes.toNat ∧ 0 < c.maxReplyBytes
  connect : Timeout o.connectTimeoutMs c.connectTimeout
  send : Timeout o.sendTimeoutMs c.sendTimeout
  receive : Timeout o.receiveTimeoutMs c.receiveTimeout

theorem Options.configured {o : Options} {c : Config} (h : o.configure = .ok c) :
    o.Configured c := by
  unfold configure at h
  obtain ⟨destination, hdestination, h⟩ := Except.bind_ok h
  obtain ⟨maxRequestBytes, hrequest, h⟩ := Except.bind_ok h
  obtain ⟨maxReplyBytes, hreply, h⟩ := Except.bind_ok h
  obtain ⟨connect, hconnect, h⟩ := Except.bind_ok h
  obtain ⟨send, hsend, h⟩ := Except.bind_ok h
  obtain ⟨receive, hreceive, h⟩ := Except.bind_ok h
  obtain rfl := Except.ok.inj h
  obtain ⟨rfl, hrequestPos⟩ := positive_ok hrequest
  obtain ⟨rfl, hreplyPos⟩ := positive_ok hreply
  obtain ⟨rfl, hconnectPos⟩ := positive_ok hconnect
  obtain ⟨rfl, hsendPos⟩ := positive_ok hsend
  obtain ⟨rfl, hreceivePos⟩ := positive_ok hreceive
  exact ⟨hdestination, rfl, rfl, ⟨rfl, hrequestPos⟩, ⟨rfl, hreplyPos⟩, ⟨rfl, hconnectPos⟩,
    ⟨rfl, hsendPos⟩, ⟨rfl, hreceivePos⟩⟩

/-- The bounds on all stages, and the grace. -/
def Config.bound (c : Config) : Span :=
  c.connectTimeout + c.sendTimeout + c.receiveTimeout + taskGrace

/-- The configuration of a user who chooses nothing. -/
def defaultConfig : Config where
  destination := .vsock 16 5000
  framing := .newline
  jsonMode := .passthrough
  maxRequestBytes := 1048576
  maxReplyBytes := 10485760
  connectTimeout := .ofMillis 5000
  sendTimeout := .ofMillis 5000
  receiveTimeout := .ofMillis 30000

example : ({ } : Options).configure = .ok defaultConfig := rfl

namespace Options.Configured

variable {o : Options} {c : Config}

theorem bound_lt (h : o.Configured c) : c.bound < UInt64.size * Span.second := by
  have hlimit : maxTimeout + maxTimeout + maxTimeout + taskGrace < UInt64.size * Span.second := by
    decide
  exact Nat.lt_of_le_of_lt (Nat.add_le_add_right (Nat.add_le_add (Nat.add_le_add
    h.connect.le_maxTimeout h.send.le_maxTimeout) h.receive.le_maxTimeout) taskGrace) hlimit

/-- The bound on a task is the sum of the bounds on its stages and the grace. -/
theorem taskTimeout? (h : o.Configured c) : c.taskTimeout? = some c.bound := by
  have hall := h.bound_lt
  have hstages := Nat.lt_of_le_of_lt (Nat.le_add_right _ taskGrace) hall
  have hfirst := Nat.lt_of_le_of_lt (Nat.le_add_right _ c.receiveTimeout) hstages
  rw [Config.taskTimeout?, Span.add?_of_lt hfirst, Option.bind_eq_bind, Option.bind_some,
    Span.add?_of_lt hstages, Option.bind_some, Span.add?_of_lt hall]
  rfl

end Options.Configured

end FramedRelay
