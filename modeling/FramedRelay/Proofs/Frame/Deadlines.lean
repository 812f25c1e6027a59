import FramedRelay.Proofs.Frame.Rounds

/-!
# Keeping to a deadline

A round that transfers bytes looks at the deadline first. It gives up if the deadline is reached,
and otherwise sets the timeout to the time that is left; only then does it read or write, and only
once (`Guarded`). So whatever a run does is `Disciplined`: each transfer follows at once on
setting the timeout of its direction, and no timeout is set to anything but the time left.

A transfer is in time if it returns within the timeout in force (`Link.timeout?`), which the record
of the link tells. If all are, and nothing else takes time (`Link.Brisk`), no round moves the
clock beyond the deadline (`Guarded.clock_le`), however the bytes come. `keepsTo_deadline` puts
this together for sending and receiving.
-/

namespace FramedRelay

/-! ## What the record tells -/

/-- The direction in which an operation transfers bytes, if it does. -/
def Operation.transfers? : Operation → Option Direction
  | .read .. => some .read
  | .write .. => some .write
  | .arm .. | .flush _ | .shutdown _ => none

/-- What an operation sets the timeout of a direction to, if it does. -/
def Operation.sets? (direction : Direction) : Operation → Option (Option Span)
  | .arm direction' span? _ true => if direction' = direction then some span? else none
  | .arm _ _ _ false | .read .. | .write .. | .flush _ | .shutdown _ => none

/-- The timeout in force for a direction, if there is one. -/
def Link.timeout? (l : Link) (direction : Direction) : Option Span :=
  (l.history.findSome? (Operation.sets? direction)).join

/-- What is done under a deadline. -/
structure Disciplined (d : Deadline) (ops : List Operation) : Prop where
  /-- Each transfer follows at once on setting the timeout of its direction to the time left. -/
  guarded : ∀ (earlier : List Operation) (op : Operation) (later : List Operation)
    (direction : Direction), ops = earlier ++ op :: later → op.transfers? = some direction →
      ∃ before now span, earlier = before ++ [.arm direction (some span) now true] ∧
        span = d.due - now ∧ 0 < span
  /-- No timeout is taken away, or set to anything but the time left, which is not zero. -/
  spans : ∀ direction span? now done, Operation.arm direction span? now done ∈ ops →
    ∃ span, span? = some span ∧ span = d.due - now ∧ 0 < span

namespace Disciplined

variable {d : Deadline} {direction : Direction} {now : Instant} {ops ops' : List Operation}
  {op : Operation}

/-- Without a transfer only the timeouts matter. -/
theorem of_spans (hops : ∀ op ∈ ops, op.transfers? = none)
    (h : ∀ direction span? now done, Operation.arm direction span? now done ∈ ops →
      ∃ span, span? = some span ∧ span = d.due - now ∧ 0 < span) : Disciplined d ops := by
  refine ⟨fun earlier op later direction hsplit hop => ?_, h⟩
  have hmem : op ∈ ops := hsplit ▸ List.mem_append_right earlier List.mem_cons_self
  simp [hops op hmem] at hop

theorem nil (d : Deadline) : Disciplined d [] :=
  of_spans (by simp) (by simp)

theorem flush (d : Deadline) (done : Bool) : Disciplined d [.flush done] :=
  of_spans (by simp [Operation.transfers?]) (by simp)

theorem arm (h : now < d.due) (done : Bool) :
    Disciplined d [.arm direction (some (d.due - now)) now done] := by
  refine of_spans (by simp [Operation.transfers?]) ?_
  rintro direction' span? now' done' hmem
  obtain ⟨rfl, rfl, rfl, rfl⟩ : direction' = direction ∧ span? = some (d.due - now) ∧
    now' = now ∧ done' = done := by simpa using hmem
  exact ⟨_, rfl, rfl, Nat.sub_pos_of_lt h⟩

/-- A transfer right after its timeout was set. -/
theorem arm_transfer (h : now < d.due) (hop : op.transfers? = some direction) :
    Disciplined d [.arm direction (some (d.due - now)) now true, op] where
  guarded earlier op' later direction' hsplit hop' := by
    rcases earlier with _ | ⟨first, _ | ⟨second, earlier⟩⟩
    · obtain ⟨rfl, -⟩ := List.cons.inj hsplit
      simp [Operation.transfers?] at hop'
    · obtain ⟨rfl, rfl, -⟩ : first = .arm direction (some (d.due - now)) now true ∧ op' = op ∧
        later = [] := by simpa [eq_comm] using hsplit
      obtain rfl := Option.some.inj (hop.symm.trans hop')
      exact ⟨[], now, _, rfl, rfl, Nat.sub_pos_of_lt h⟩
    · simp at hsplit
  spans direction' span? now' done hmem := by
    rcases List.mem_cons.1 hmem with hmem | hmem
    · exact (arm h true).spans _ _ _ _ (List.mem_singleton.2 hmem)
    · obtain rfl := List.mem_singleton.1 hmem
      simp [Operation.transfers?] at hop

theorem append (h : Disciplined d ops) (h' : Disciplined d ops') :
    Disciplined d (ops ++ ops') where
  guarded earlier op later direction hsplit hop := by
    rcases List.append_eq_append_iff.1 hsplit with ⟨mid, rfl, hmid⟩ | ⟨mid, hmid, hlater⟩
    · obtain ⟨before, now, span, rfl, hspan, hpos⟩ := h'.guarded mid op later direction hmid hop
      exact ⟨ops ++ before, now, span, (List.append_assoc _ _ _).symm, hspan, hpos⟩
    · cases mid with
      | nil =>
        obtain ⟨before, now, span, hnil, -⟩ := h'.guarded [] op later direction hlater.symm hop
        simp at hnil
      | cons op' mid =>
        obtain ⟨rfl, -⟩ := List.cons.inj hlater
        exact h.guarded earlier _ mid direction hmid hop
  spans direction span? now done hmem := by
    rcases List.mem_append.1 hmem with hmem | hmem
    · exact h.spans _ _ _ _ hmem
    · exact h'.spans _ _ _ _ hmem

end Disciplined

/-- What was done to a link to make it another was done under a deadline. -/
def Deadline.Governs (d : Deadline) (l l' : Link) : Prop :=
  ∃ ops, l'.operations = l.operations ++ ops ∧ Disciplined d ops

namespace Deadline.Governs

variable {d : Deadline} {l l' l'' : Link}

theorem refl (d : Deadline) (l : Link) : d.Governs l l :=
  ⟨[], (List.append_nil _).symm, .nil d⟩

theorem trans (h : d.Governs l l') (h' : d.Governs l' l'') : d.Governs l l'' := by
  obtain ⟨ops, heq, hops⟩ := h
  obtain ⟨ops', heq', hops'⟩ := h'
  exact ⟨ops ++ ops', by rw [heq', heq, List.append_assoc], hops.append hops'⟩

/-- The record has the latest operation first. -/
theorem of_history (ops : List Operation) (h : l'.history = ops.reverse ++ l.history)
    (hops : Disciplined d ops) : d.Governs l l' :=
  ⟨ops, by simp [Link.operations, h], hops⟩

end Deadline.Governs

/-! ## One round -/

/-- The deadline is not reached, and the timeout could be set to what is left. -/
theorem Link.arm_of_ready {d : Deadline} {direction : Direction} {l m : Link}
    (h : l.ready d direction = (.ok (), m)) :
    l.clock < d.due ∧ l.arm direction (some (d.due - l.clock)) = (.ok (), m) := by
  unfold ready Deadline.left? at h
  by_cases hdue : l.clock < d.due
  · simp only [hdue, if_true] at h
    split at h
    · next m' harm =>
      obtain ⟨-, rfl⟩ := Prod.mk.inj h
      exact ⟨hdue, harm⟩
    · simp at h
  · simp [hdue] at h

/-- What a round that looks at a deadline does to a link. -/
inductive Guarded (d : Deadline) (direction : Direction) (transfer : Link → Link) (l : Link) :
    Link → Prop
  /-- The deadline is reached, and nothing is done. -/
  | expired (h : d.due ≤ l.clock) : Guarded d direction transfer l l
  /-- The timeout cannot be set to what is left. -/
  | unarmed {f : Fault} {m : Link} (h : l.clock < d.due)
      (harm : l.arm direction (some (d.due - l.clock)) = (.error f, m)) :
      Guarded d direction transfer l m
  /-- The timeout is set to what is left, and bytes are transferred once. -/
  | armed {m : Link} (h : l.clock < d.due)
      (harm : l.arm direction (some (d.due - l.clock)) = (.ok (), m))
      (hready : l.ready d direction = (.ok (), m)) :
      Guarded d direction transfer l (transfer m)

namespace Guarded

variable {d : Deadline} {direction : Direction} {transfer : Link → Link} {l l' m : Link}
  {failure : Failure}

theorem of_ready_error (transfer : Link → Link) (h : l.ready d direction = (.error failure, m)) :
    Guarded d direction transfer l m := by
  unfold Link.ready Deadline.left? at h
  by_cases hdue : l.clock < d.due
  · simp only [hdue, if_true] at h
    split at h
    · simp at h
    · next f m' harm =>
      obtain ⟨-, rfl⟩ := Prod.mk.inj h
      exact .unarmed hdue harm
  · simp only [hdue, if_false] at h
    obtain ⟨-, rfl⟩ := Prod.mk.inj h
    exact .expired (Nat.le_of_not_lt hdue)

theorem of_ready_ok (transfer : Link → Link) (h : l.ready d direction = (.ok (), m)) :
    Guarded d direction transfer l (transfer m) := by
  obtain ⟨hdue, harm⟩ := Link.arm_of_ready h
  exact .armed hdue harm h

end Guarded

/-! ## Discipline -/

namespace Link

variable {l m : Link} {direction : Direction} {span? : Option Span} {f : Fault}

theorem history_arm_ok (h : l.arm direction span? = (.ok (), m)) :
    m.history = .arm direction span? l.clock true :: l.history := by
  unfold arm at h
  split at h
  · obtain ⟨-, rfl⟩ := Prod.mk.inj h
    rfl
  · obtain ⟨-, rfl⟩ := Prod.mk.inj h
    rfl
  · simp at h

theorem history_arm_error (h : l.arm direction span? = (.error f, m)) :
    m.history = .arm direction span? l.clock false :: l.history := by
  unfold arm at h
  split at h
  · simp at h
  · simp at h
  · obtain ⟨-, rfl⟩ := Prod.mk.inj h
    rfl

/-- After the timeout of a direction was set, it is in force. -/
theorem timeout?_of_arm (h : l.arm direction span? = (.ok (), m)) :
    m.timeout? direction = span? := by
  simp [timeout?, history_arm_ok h, Operation.sets?]

end Link

namespace Guarded

variable {d : Deadline} {direction : Direction} {transfer : Link → Link} {l l' : Link}

theorem governs (h : Guarded d direction transfer l l')
    (htransfer : ∀ m, ∃ op, (transfer m).history = op :: m.history ∧
      op.transfers? = some direction) : d.Governs l l' := by
  cases h with
  | expired h => exact .refl d l
  | unarmed h harm => exact .of_history [_] (Link.history_arm_error harm) (.arm h false)
  | @armed m h harm hready =>
    obtain ⟨op, hhistory, hop⟩ := htransfer m
    refine .of_history [_, op] ?_ (.arm_transfer h hop)
    rw [hhistory, Link.history_arm_ok harm]
    rfl

end Guarded

/-! ## Time -/

namespace Link

/-- Setting timeouts and flushing take no time. -/
structure Brisk (l : Link) : Prop where
  arms : ∀ a ∈ l.arms, a.delay = 0
  flushes : ∀ a ∈ l.flushes, a.delay = 0

/-- Another link comes within the timeout in force for a direction. -/
def Within (l : Link) (direction : Direction) (l' : Link) : Prop :=
  ∀ span, l.timeout? direction = some span → l'.clock ≤ l.clock + span

namespace Brisk

variable {l : Link}

theorem ready (h : l.Brisk) (d : Deadline) (direction : Direction) :
    (l.ready d direction).2.Brisk := by
  obtain ⟨clock, arms, history, heq, -, hsuffix, -⟩ := l.ready_eq d direction
  rw [heq]
  exact ⟨fun a ha => h.arms a (hsuffix.subset ha), h.flushes⟩

theorem read (h : l.Brisk) (room : Nat) : (l.read room).2.Brisk := by
  obtain ⟨clock, unread, reads, count?, heq, -, -⟩ := l.read_eq room
  rw [heq]
  exact ⟨h.arms, h.flushes⟩

theorem write (h : l.Brisk) (offered : Bytes) : (l.write offered).2.Brisk := by
  obtain ⟨clock, writes, pieces, count?, heq, -, -⟩ := l.write_eq offered
  rw [heq]
  exact ⟨h.arms, h.flushes⟩

theorem flush (h : l.Brisk) : l.flush.2.Brisk := by
  obtain ⟨clock, flushes, done, heq, -, hsuffix⟩ := l.flush_eq
  rw [heq]
  exact ⟨h.arms, fun a ha => h.flushes a (hsuffix.subset ha)⟩

theorem clock_arm (h : l.Brisk) (direction : Direction) (span? : Option Span) :
    (l.arm direction span?).2.clock = l.clock := by
  have harms := h.arms
  unfold arm
  split <;> simp_all

theorem clock_flush (h : l.Brisk) : l.flush.2.clock = l.clock := by
  have hflushes := h.flushes
  unfold Link.flush
  split <;> simp_all

end Brisk

end Link

/-- If there is a transfer once the timeout is set, it is over within it. -/
def InTime (d : Deadline) (direction : Direction) (transfer : Link → Link) (l : Link) : Prop :=
  ∀ m, l.ready d direction = (.ok (), m) → m.Within direction (transfer m)

/-- A round whose transfer is in time does not go beyond the deadline, unless it starts there. -/
theorem Guarded.clock_le {d : Deadline} {direction : Direction} {transfer : Link → Link}
    {l l' : Link} (h : Guarded d direction transfer l l') (hl : l.Brisk)
    (htime : InTime d direction transfer l) : l'.clock ≤ max d.due l.clock := by
  cases h with
  | expired h => exact Nat.le_max_right _ _
  | unarmed h harm =>
    have hclock := hl.clock_arm direction (some (d.due - l.clock))
    rw [harm] at hclock
    exact hclock ▸ Nat.le_max_right _ _
  | @armed m h harm hready =>
    have hclock := hl.clock_arm direction (some (d.due - l.clock))
    rw [harm] at hclock
    have hover := htime m hready _ (Link.timeout?_of_arm harm)
    rw [show m.clock = l.clock from hclock, Nat.add_sub_of_le (Nat.le_of_lt h)] at hover
    exact Nat.le_trans hover (Nat.le_max_left _ _)

/-! ## Runs -/

section Runs

variable {σ α : Type} {step : σ → Link → Progress σ α} {d : Deadline} {direction : Direction}
  {transfer? : σ → Option (Link → Link)} {a : σ × Link} {result : Except Stop α} {l' : Link}

/-- Rounds of `step` lead to one that ends the work. -/
def Completes (step : σ → Link → Progress σ α) (a : σ × Link) (result : Except Stop α)
    (l' : Link) : Prop :=
  ∃ b events, Leads step a b ∧ step b.1 b.2 = ⟨.ended result, l', events⟩

/-- Rounds come to one end only. -/
theorem Completes.eq_of_leads {b : σ × Link} {result' : Except Stop α} {m : Link}
    {events : List Event} (h : Completes step a result l') (hlead : Leads step a b)
    (hlast : step b.1 b.2 = ⟨.ended result', m, events⟩) : result = result' ∧ l' = m := by
  obtain ⟨c, events', hlead', hlast'⟩ := h
  have hlast_eq {b c : σ × Link} {result : Except Stop α} {m : Link} {events : List Event}
      (hb : step b.1 b.2 = ⟨.ended result, m, events⟩) (h : Leads step b c) : b = c := by
    rcases Relation.ReflTransGen.cases_head h with rfl | ⟨e, ⟨events', hround⟩, -⟩
    · rfl
    · simp [hb] at hround
  have hunique : Relator.RightUnique fun a b : σ × Link =>
      ∃ events, step a.1 a.2 = ⟨.again b.1, b.2, events⟩ := by
    rintro a ⟨s, l⟩ ⟨s', l'⟩ ⟨events, hround⟩ ⟨events', hround'⟩
    rw [hround] at hround'
    simp only [Progress.mk.injEq, Round.again.injEq] at hround'
    rw [hround'.1, hround'.2.1]
  obtain rfl : b = c := by
    rcases Relation.ReflTransGen.total_of_right_unique hunique hlead hlead' with h | h
    · exact hlast_eq hlast h
    · exact (hlast_eq hlast' h).symm
  rw [hlast] at hlast'
  simp only [Progress.mk.injEq, Round.ended.injEq] at hlast'
  exact ⟨hlast'.1.symm, hlast'.2.1.symm⟩

/-- The rounds of some work each look at a deadline and transfer bytes, or flush what was sent. -/
structure Timed (d : Deadline) (direction : Direction) (step : σ → Link → Progress σ α)
    (transfer? : σ → Option (Link → Link)) : Prop where
  expired : ∀ s l, (transfer? s).isSome → d.due ≤ l.clock →
    step s l = ⟨.ended (.error (.failure (.timedOut d.stage))), l, []⟩
  guarded : ∀ s l transfer, transfer? s = some transfer →
    Guarded d direction transfer l (step s l).link
  flush : ∀ s l, transfer? s = none → (step s l).link = l.flush.2
  transfers : ∀ s transfer m, transfer? s = some transfer → ∃ op,
    (transfer m).history = op :: m.history ∧ op.transfers? = some direction
  brisk : ∀ s l, l.Brisk → (step s l).link.Brisk

/-- How work keeps to a deadline from its start to its end. -/
structure KeepsTo (d : Deadline) (direction : Direction) (step : σ → Link → Progress σ α)
    (transfer? : σ → Option (Link → Link)) (a : σ × Link) (result : Except Stop α)
    (l' : Link) : Prop where
  /-- Each transfer follows at once on setting its timeout to the time left, and no timeout is
  taken away or set to anything else. -/
  governed : ∃ ops, l'.operations = a.2.operations ++ ops ∧ Disciplined d ops
  /-- When a round finds the deadline reached, the work has run out of time, and nothing more is
  done to the link. -/
  expired : ∀ s m, Leads step a (s, m) → (transfer? s).isSome → d.due ≤ m.clock →
    result = .error (.failure (.timedOut d.stage)) ∧ l' = m
  /-- If every transfer is in time, the work is over by the deadline, unless it starts later. -/
  bounded : a.2.Brisk → (∀ s m transfer, Leads step a (s, m) → transfer? s = some transfer →
    InTime d direction transfer m) → l'.clock ≤ max d.due a.2.clock

namespace Timed

theorem governs_step (h : Timed d direction step transfer?) (s : σ) (l : Link) :
    d.Governs l (step s l).link := by
  cases htransfer : transfer? s with
  | some transfer =>
    exact (h.guarded s l transfer htransfer).governs fun m => h.transfers s transfer m htransfer
  | none =>
    obtain ⟨clock, flushes, done, hflush, -⟩ := l.flush_eq
    rw [h.flush s l htransfer, hflush]
    exact .of_history [_] rfl (.flush d done)

theorem clock_step_le (h : Timed d direction step transfer?) {s : σ} {l : Link} (hl : l.Brisk)
    (htime : ∀ transfer, transfer? s = some transfer → InTime d direction transfer l) :
    (step s l).link.clock ≤ max d.due l.clock := by
  cases htransfer : transfer? s with
  | some transfer => exact (h.guarded s l transfer htransfer).clock_le hl (htime transfer htransfer)
  | none =>
    rw [h.flush s l htransfer, hl.clock_flush]
    exact Nat.le_max_right _ _

/-- Work whose rounds look at a deadline keeps to it. -/
theorem keepsTo (h : Timed d direction step transfer?) (hrun : Completes step a result l') :
    KeepsTo d direction step transfer? a result l' := by
  obtain ⟨⟨s', m⟩, events, hlead, hlast⟩ := hrun
  refine ⟨?_, fun s m hlead' htransfer hdue => ?_, fun hl htime => ?_⟩
  · have hm : d.Governs a.2 m := by
      refine hlead.invariant (I := fun _ m => d.Governs a.2 m) ?_ (.refl d a.2)
      intro s₁ m₁ s₂ m₂ events hround hm₁
      have := h.governs_step s₁ m₁
      rw [hround] at this
      exact hm₁.trans this
    have := h.governs_step s' m
    rw [hlast] at this
    exact hm.trans this
  · exact Completes.eq_of_leads ⟨(s', _), events, hlead, hlast⟩ hlead'
      (h.expired s m htransfer hdue)
  · have hm : Leads step a (s', m) ∧ m.Brisk ∧ m.clock ≤ max d.due a.2.clock := by
      refine hlead.invariant (I := fun s' m => Leads step a (s', m) ∧ m.Brisk ∧
        m.clock ≤ max d.due a.2.clock) ?_ ⟨.refl a, hl, Nat.le_max_right _ _⟩
      rintro s₁ m₁ s₂ m₂ events hround ⟨hlead₁, hbrisk₁, hclock₁⟩
      have hbrisk := h.brisk s₁ m₁ hbrisk₁
      have hclock := h.clock_step_le hbrisk₁ fun transfer => htime s₁ m₁ transfer hlead₁
      rw [hround] at hbrisk hclock
      exact ⟨hlead₁.tail ⟨events, hround⟩, hbrisk,
        Nat.le_trans hclock (Nat.max_le.2 ⟨Nat.le_max_left _ _, hclock₁⟩)⟩
    have hclock := h.clock_step_le hm.2.1 fun transfer => htime s' m transfer hm.1
    rw [hlast] at hclock
    exact Nat.le_trans hclock (Nat.max_le.2 ⟨Nat.le_max_left _ _, hm.2.2⟩)

end Timed

end Runs

/-! ## Sending and receiving -/

/-- The transfer of a round of sending: there is none when only the flush is left. -/
def Sending.transfer? : Bytes → Option (Link → Link)
  | [] => none
  | b :: bs => some fun m => (m.write (b :: bs)).2

/-- The transfer of a round of receiving. -/
def Receiving.transfer? (s : Receiving) : Option (Link → Link) :=
  some fun m => (m.read s.room).2

theorem Sending.completes (d : Deadline) (size : Nat) (left : Bytes) (l : Link) :
    Completes (step d size) (left, l) (run d size left l).1 (run d size left l).2.1 := by
  obtain ⟨left', m, events, hlead, hlast⟩ := exists_last_round d size left l
  exact ⟨(left', m), events, hlead, hlast⟩

theorem Receiving.completes (limit : Nat) (d : Deadline) (s : Receiving) (l : Link) :
    Completes (step limit d) (s, l) (run limit d s l).1 (run limit d s l).2.1 := by
  obtain ⟨s', m, events, hlead, hlast⟩ := exists_last_round limit d s l
  exact ⟨(s', m), events, hlead, hlast⟩

theorem Link.ready_of_expired {d : Deadline} {l : Link} (h : d.due ≤ l.clock)
    (direction : Direction) : l.ready d direction = (.error (.timedOut d.stage), l) := by
  simp [ready, Deadline.left?, Nat.not_lt.2 h, Deadline.failure]

theorem Sending.timed (d : Deadline) (size : Nat) :
    Timed d .write (step d size) transfer? where
  expired left l htransfer hdue := by
    cases left with
    | nil => cases htransfer
    | cons b bs => simp [step, offer, Link.ready_of_expired hdue, Progress.fail]
  guarded left l transfer htransfer := by
    cases left with
    | nil => cases htransfer
    | cons b bs =>
      obtain rfl := Option.some.inj htransfer
      show Guarded d .write _ l (offer d (b :: bs) l).link
      unfold offer
      split
      · next failure m h => exact .of_ready_error _ h
      · next m h =>
        have hm := Guarded.of_ready_ok (fun m => (m.write (b :: bs)).2) h
        split
        · next m' h' =>
          rw [h'] at hm
          exact hm
        · next count m' _ h' =>
          rw [h'] at hm
          exact hm
        · next f m' h' =>
          rw [h'] at hm
          split <;> exact hm
  flush left l htransfer := by
    cases left with
    | cons b bs => cases htransfer
    | nil =>
      show (Sending.flush d size l).link = _
      unfold Sending.flush
      split
      · next h => rw [h]; rfl
      · next h => rw [h]; rfl
  transfers left transfer m htransfer := by
    cases left with
    | nil => cases htransfer
    | cons b bs =>
      obtain rfl := Option.some.inj htransfer
      obtain ⟨clock, writes, pieces, count?, hwrite, -⟩ := m.write_eq (b :: bs)
      exact ⟨.write (b :: bs).length count?, congrArg Link.history hwrite, rfl⟩
  brisk left l hl := keeps_step d (fun _ h => h.ready d .write) (fun _ bs h => h.write bs)
    (fun _ h => h.flush) size left hl

theorem Receiving.timed (limit : Nat) (d : Deadline) :
    Timed d .read (step limit d) transfer? where
  expired s l _ hdue := by simp [step, Link.ready_of_expired hdue, Progress.fail]
  guarded s l transfer htransfer := by
    obtain rfl := Option.some.inj htransfer
    unfold step
    split
    · next failure m h => exact .of_ready_error _ h
    · next m h =>
      have hm := Guarded.of_ready_ok (fun m => (m.read s.room).2) h
      split
      · next m' h' =>
        rw [h'] at hm
        rw [(atEnd_ended m' s).1]
        exact hm
      · next b bs m' h' =>
        rw [h'] at hm
        rw [link_take limit m' (b :: bs) s]
        exact hm
      · next f m' h' =>
        rw [h'] at hm
        split <;> exact hm
  flush s l htransfer := by cases htransfer
  transfers s transfer m htransfer := by
    obtain rfl := Option.some.inj htransfer
    obtain ⟨clock, unread, reads, count?, hread, -⟩ := m.read_eq s.room
    exact ⟨.read s.room count?, congrArg Link.history hread, rfl⟩
  brisk s l hl := keeps_step limit d (fun _ h => h.ready d .read) (fun _ room h => h.read room)
    s hl

/-! ## Scripts that are in time -/

/-- After a link that takes no time to set the timeout, a transfer that ends by the deadline is in
time. -/
theorem InTime.of_clock_le {d : Deadline} {direction : Direction} {transfer : Link → Link}
    {l : Link} (hl : l.Brisk)
    (h : ∀ m, l.ready d direction = (.ok (), m) → (transfer m).clock ≤ d.due) :
    InTime d direction transfer l := by
  intro m hready span hspan
  obtain ⟨hdue, harm⟩ := Link.arm_of_ready hready
  have hclock : m.clock = l.clock := by
    simpa only [harm] using hl.clock_arm direction (some (d.due - l.clock))
  obtain rfl : d.due - l.clock = span :=
    Option.some.inj ((Link.timeout?_of_arm harm).symm.trans hspan)
  rw [hclock, Nat.add_sub_of_le (Nat.le_of_lt hdue)]
  exact h m hready

namespace Link

/-- The time that the answers scripted for a direction take. -/
def scripted (l : Link) : Direction → Nat
  | .read => timeOf l.reads
  | .write => timeOf l.writes

/-- What is scripted for a direction is done by `t`, and setting timeouts and flushing take no
time. -/
structure DoneBy (direction : Direction) (t : Instant) (l : Link) : Prop where
  brisk : l.Brisk
  scripted_le : l.clock + l.scripted direction ≤ t

theorem Brisk.ready_eq {l : Link} (h : l.Brisk) (d : Deadline) (direction : Direction) :
    ∃ arms history, (l.ready d direction).2 = { l with arms, history } := by
  obtain ⟨clock, arms, history, heq, htime, hsuffix, -⟩ := l.ready_eq d direction
  have hzero {answers : List (Answer Unit)} (h : ∀ a ∈ answers, a.delay = 0) :
      timeOf answers = 0 := by
    induction answers with
    | nil => rfl
    | cons a answers ih =>
      rw [timeOf, h a List.mem_cons_self, ih fun b hb => h b (List.mem_cons_of_mem a hb)]
  rw [hzero h.arms, hzero fun a ha => h.arms a (hsuffix.subset ha)] at htime
  obtain rfl : clock = l.clock := htime
  exact ⟨arms, history, heq⟩

namespace DoneBy

variable {l m : Link} {t : Instant} {d d' : Deadline} {direction : Direction}
  {transfer : Link → Link}

theorem ready (h : l.DoneBy direction t) (d : Deadline) (direction' : Direction) :
    (l.ready d direction').2.DoneBy direction t := by
  obtain ⟨arms, history, heq⟩ := h.brisk.ready_eq d direction'
  refine ⟨h.brisk.ready d direction', ?_⟩
  rw [heq]
  cases direction <;> exact h.scripted_le

theorem read (h : l.DoneBy .read t) (room : Nat) : (l.read room).2.DoneBy .read t := by
  obtain ⟨clock, unread, reads, count?, heq, htime, -⟩ := l.read_eq room
  refine ⟨h.brisk.read room, ?_⟩
  rw [heq]
  exact htime ▸ h.scripted_le

theorem write (h : l.DoneBy .write t) (offered : Bytes) : (l.write offered).2.DoneBy .write t := by
  obtain ⟨clock, writes, pieces, count?, heq, htime, -⟩ := l.write_eq offered
  refine ⟨h.brisk.write offered, ?_⟩
  rw [heq]
  exact htime ▸ h.scripted_le

theorem flush (h : l.DoneBy direction t) : l.flush.2.DoneBy direction t := by
  have hclock := h.brisk.clock_flush
  refine ⟨h.brisk.flush, ?_⟩
  obtain ⟨clock, flushes, done, heq, -⟩ := l.flush_eq
  rw [heq] at hclock ⊢
  obtain rfl : clock = l.clock := hclock
  cases direction <;> exact h.scripted_le

/-- What is done by the deadline is in time. -/
theorem inTime (h : l.DoneBy direction d.due)
    (htransfer : ∀ m, m.DoneBy direction d.due → (transfer m).DoneBy direction d.due) :
    InTime d direction transfer l := by
  refine .of_clock_le h.brisk fun m hready => ?_
  have hm := h.ready d direction
  rw [hready] at hm
  exact Nat.le_trans (Nat.le_add_right _ _) (htransfer m hm).scripted_le

theorem leads_receiving {limit : Nat} {s s' : Receiving} (h : l.DoneBy .read t)
    (hlead : Leads (Receiving.step limit d) (s, l) (s', m)) : m.DoneBy .read t :=
  Receiving.keeps_leads (I := DoneBy .read t) d (fun _ h => h.ready d .read)
    (fun _ room h => h.read room) hlead h

end DoneBy

end Link

/-- Sending and receiving keep to their deadlines, whatever the link does. Each read or write
follows at once on setting its timeout to the time left, which is not zero; no timeout is taken
away; a round that finds the deadline reached is the last and does nothing to the link; and if
every transfer returns within the timeout in force, while setting timeouts and flushing take no
time, the work is over by the deadline, unless it starts later. -/
theorem keepsTo_deadline (d : Deadline) (l : Link) :
    (∀ framing payload, KeepsTo d .write (Sending.step d (framing.encode payload).length)
      Sending.transfer? (framing.encode payload, l) (send framing payload d l).1
      (send framing payload d l).2.1) ∧
    ∀ framing limit, KeepsTo d .read (Receiving.step limit d) Receiving.transfer?
      (.start framing, l) (receive framing limit d l).1 (receive framing limit d l).2.1 :=
  ⟨fun _ _ => (Sending.timed d _).keepsTo (Sending.completes d _ _ l),
    fun _ limit => (Receiving.timed limit d).keepsTo (Receiving.completes limit d _ l)⟩

/-- A link that gives a byte after six units of time, and another after four more. -/
def drippingLink : Link where
  reads := [⟨6, .ok [0x61]⟩, ⟨4, .ok [0x62]⟩]

/-- The bytes go on coming until the deadline; the next round finds it reached, and is the last. -/
theorem keepsTo_deadline_drippingLink :
    (receive .newline 9 ⟨10, "waiting for reply"⟩ drippingLink).2.1.clock ≤ 10 ∧
      (receive .newline 9 ⟨10, "waiting for reply"⟩ drippingLink).1 =
        .error (.failure (.timedOut "waiting for reply")) := by
  have hkeeps := (keepsTo_deadline ⟨10, "waiting for reply"⟩ drippingLink).2 .newline 9
  have hscript : drippingLink.DoneBy .read 10 :=
    ⟨⟨by simp [drippingLink], by simp [drippingLink]⟩, by decide⟩
  refine ⟨hkeeps.bounded hscript.brisk fun s m transfer hlead htransfer => ?_, ?_⟩
  · obtain rfl := Option.some.inj htransfer
    exact (hscript.leads_receiving hlead).inTime fun _ h => h.read s.room
  · have hfirst : Receiving.step 9 ⟨10, "waiting for reply"⟩ (.start .newline) drippingLink =
        ⟨.again (.line [0x61]), { clock := 6, reads := [⟨4, .ok [0x62]⟩], history :=
          [.read 4096 (some 1), .arm .read (some 10) 0 true] }, []⟩ := rfl
    exact (hkeeps.expired (.line [0x61, 0x62]) { clock := 10, history :=
      [.read 4096 (some 1), .arm .read (some 4) 6 true, .read 4096 (some 1),
        .arm .read (some 10) 0 true] } (.head hfirst (.head rfl (.refl _))) rfl (by decide)).1

end FramedRelay
