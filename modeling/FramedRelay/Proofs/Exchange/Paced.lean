import FramedRelay.Proofs.Configuration
import FramedRelay.Proofs.Exchange.Extent

/-!
# Exchanges at a given pace

A `pacedLink` accepts the whole frame at once and answers one read, each after a given time. Three
steps lead an exchange from dialling such a link to waiting for its answer
(`Exchange.iterate_next_paced`), and one round of receiving takes the answer
(`Link.Paced.step_piece`). So an exchange can be brought to any point of time and be given any
bytes there.
-/

namespace FramedRelay

theorem Framing.encode_ne_nil (framing : Framing) (payload : Bytes) :
    framing.encode payload ≠ [] := by
  cases framing with
  | newline => exact List.append_ne_nil_of_right_ne_nil _ (List.cons_ne_nil _ _)
  | lengthPrefixed =>
    intro h
    have := congrArg List.length h
    rw [length_encode_lengthPrefixed] at this
    exact absurd (Nat.add_eq_zero_iff.1 this).1 (by decide)

/-- The instants that the clock can show are below this one. -/
def clockLimit : Instant := UInt64.size / 2 * Span.second

theorem Deadline.start?_of_lt {t : Instant} {limit : Span} (h : t + limit < clockLimit)
    (stage : String) : Deadline.start? t limit stage = some ⟨t + limit, stage⟩ :=
  congrArg (Option.map _) (Instant.after?_of_lt h)

/-- A link that takes `writing` to accept what is offered first, and `reading` to give `answer` to
the first read. -/
def pacedLink (writing reading : Span) (answer : Except Fault Bytes) : Link where
  reads := [⟨reading, answer⟩]
  writes := [⟨writing, .ok none⟩]

/-! ## One round -/

/-- It is `t` for a link that is going to answer writes and reads so, and holds nothing else up. -/
structure Link.Paced (t : Instant) (writes : List (Answer (Option Nat)))
    (reads : List (Answer Bytes)) (l : Link) : Prop where
  clock : l.clock = t
  unread : l.unread = []
  reads : l.reads = reads
  writes : l.writes = writes
  flushes : l.flushes = []
  arms : l.arms = []

namespace Link.Paced

variable {l : Link} {d : Deadline} {direction : Direction} {t : Instant} {span : Span}
  {writes : List (Answer (Option Nat))} {reads : List (Answer Bytes)}

theorem ready (h : l.Paced t writes reads) (hdue : t < d.due) (direction : Direction) :
    ∃ m, l.ready d direction = (.ok (), m) ∧ m.Paced t writes reads := by
  have hclock : l.clock < d.due := h.clock ▸ hdue
  refine ⟨{ l with history := .arm direction (some (d.due - l.clock)) l.clock true :: l.history },
    ?_, h.clock, h.unread, h.reads, h.writes, h.flushes, h.arms⟩
  simp [Link.ready, Deadline.left?, hclock, arm, h.arms]

/-- All that is offered is accepted at once. -/
theorem step_offer (h : l.Paced t [⟨span, .ok none⟩] reads) (hdue : t < d.due) (size : Nat)
    (b : UInt8) (bs : Bytes) : ∃ m, m.Paced (t + span) [] reads ∧
      Sending.step d size (b :: bs) l = .again m [] := by
  obtain ⟨m, hready, hm⟩ := h.ready hdue .write
  have hwrite : m.write (b :: bs) = (.ok (bs.length + 1), (m.write (b :: bs)).2) := by
    simp [write, hm.writes]
  refine ⟨(m.write (b :: bs)).2, ?_, ?_⟩
  · constructor <;> simp [write, hm.writes, hm.clock, hm.unread, hm.reads, hm.flushes, hm.arms]
  · simp only [Sending.step, Sending.offer, hready]
    rw [hwrite]
    simp

/-- What was sent is flushed at once. -/
theorem step_flush (h : l.Paced t writes reads) (d : Deadline) (size : Nat) :
    ∃ m, m.Paced t writes reads ∧ Sending.step d size [] l = .ok m () [.frameSent size] := by
  refine ⟨{ l with history := .flush true :: l.history },
    ⟨h.clock, h.unread, h.reads, h.writes, h.flushes, h.arms⟩, ?_⟩
  simp [Sending.step, Sending.flush, flush, h.flushes]

/-- A piece that the link is going to give is taken in the next round of receiving. -/
theorem step_piece {b : UInt8} {bs : Bytes} {s : Receiving}
    (h : l.Paced t writes [⟨span, .ok (b :: bs)⟩]) (hdue : t < d.due)
    (hroom : (b :: bs).length ≤ s.room) (limit : Nat) :
    ∃ m, m.clock = t + span ∧ s.step limit d l = s.take limit m (b :: bs) := by
  obtain ⟨m, hready, hm⟩ := h.ready hdue .read
  have hread : m.read s.room = (.ok (b :: bs), (m.read s.room).2) := by
    simp [Link.read, hm.unread, hm.reads, List.take_of_length_le hroom]
  refine ⟨(m.read s.room).2, by simp [Link.read, hm.unread, hm.reads, hm.clock], ?_⟩
  simp only [Receiving.step, hready]
  rw [hread]

end Link.Paced

/-! ## From dialling to the answer -/

namespace Exchange

variable {c : Config} {payload : Bytes} {t : Instant} {address : String} {delay : Span}
  {left : List Attempt} {last? : Option Fault} {writing reading : Span}
  {answer : Except Fault Bytes} {x : Exchange} {j : Nat}

/-- A paced link that is dialled accepts the frame in the second step. -/
theorem iterate_next_accepted (hpos : 0 < c.sendTimeout)
    (hsend : t + delay + c.sendTimeout < clockLimit) :
    ∃ l m, l.written = [] ∧ m.Paced (t + delay + writing) [] [⟨reading, answer⟩] ∧
      (next c)^[1] ⟨payload,
        .dialling t (⟨address, delay, .ok (pacedLink writing reading answer)⟩ :: left) last?⟩ =
        ⟨payload, .sending ⟨t + delay + c.sendTimeout, "sending request"⟩
          (c.framing.encode payload) l⟩ ∧
      Sending.step ⟨t + delay + c.sendTimeout, "sending request"⟩
        (c.framing.encode payload).length (c.framing.encode payload) l = .again m [] := by
  obtain ⟨b, bs, hframe⟩ := List.exists_cons_of_ne_nil (c.framing.encode_ne_nil payload)
  have haccepted : Link.Paced (t + delay) [⟨writing, .ok none⟩] [⟨reading, answer⟩]
      { pacedLink writing reading answer with clock := t + delay } :=
    ⟨rfl, rfl, rfl, rfl, rfl, rfl⟩
  obtain ⟨m, hm, hoffer⟩ := haccepted.step_offer
    (d := ⟨t + delay + c.sendTimeout, "sending request"⟩) (Nat.lt_add_of_pos_right hpos)
    (c.framing.encode payload).length b bs
  rw [← hframe] at hoffer
  refine ⟨_, m, ?_, hm, ?_, hoffer⟩
  · rfl
  simp only [Function.iterate_one, next, step, Stage.step, Stage.connect,
    Deadline.start?_of_lt hsend]

/-- After the third step it waits for the answer. -/
theorem iterate_next_paced (hpos : 0 < c.sendTimeout)
    (hsend : t + delay + c.sendTimeout < clockLimit)
    (hreceive : t + delay + writing + c.receiveTimeout < clockLimit) :
    ∃ m, m.Paced (t + delay + writing) [] [⟨reading, answer⟩] ∧
      (next c)^[3] ⟨payload,
        .dialling t (⟨address, delay, .ok (pacedLink writing reading answer)⟩ :: left) last?⟩ =
        ⟨payload, .receiving ⟨t + delay + writing + c.receiveTimeout, "waiting for reply"⟩
          (.start c.framing) m⟩ := by
  obtain ⟨l, sent, -, hsent, hdial, hoffer⟩ := @iterate_next_accepted c payload t address delay
    left last? writing reading answer hpos hsend
  obtain ⟨m, hm, hflush⟩ := hsent.step_flush ⟨t + delay + c.sendTimeout, "sending request"⟩
    (c.framing.encode payload).length
  refine ⟨m, hm, ?_⟩
  rw [Function.iterate_add_apply (next c) 2 1, hdial]
  simp only [Function.iterate_succ_apply, Function.iterate_zero, id, next, step, Stage.step,
    hoffer, Progress.again, hflush, Progress.ok, Stage.await]
  rw [hm.clock, Deadline.start?_of_lt hreceive]

/-- When the answer is the last that is waited for, the run is over once it has come. -/
theorem run_paced {result : Except Stop Bytes} (hx : (next c)^[j] x = ⟨payload,
      .dialling t (⟨address, delay, .ok (pacedLink writing reading answer)⟩ :: left) last?⟩)
    (hpos : 0 < c.sendTimeout) (hsend : t + delay + c.sendTimeout < clockLimit)
    (hreceive : t + delay + writing + c.receiveTimeout < clockLimit)
    (hanswer : ∀ m, m.Paced (t + delay + writing) [] [⟨reading, answer⟩] → ∃ m' events,
      m'.clock = t + delay + writing + reading ∧ Receiving.step c.maxReplyBytes
        ⟨t + delay + writing + c.receiveTimeout, "waiting for reply"⟩ (.start c.framing) m =
          ⟨.ended result, m', events⟩) :
    ∃ link, (x.run c).1 =
      ⟨payload, .ended result (t + delay + writing + reading) (some link)⟩ := by
  obtain ⟨m, hm, hiterate⟩ := @iterate_next_paced c payload t address delay left last? writing
    reading answer hpos hsend hreceive
  obtain ⟨m', events, hclock, hround⟩ := hanswer m hm
  have hlast : (next c)^[2 + (3 + j)] x = ⟨payload,
      .ended result (t + delay + writing + reading) (some m'.shutdown.2)⟩ := by
    rw [Function.iterate_add_apply, Function.iterate_add_apply, hx, hiterate]
    simp only [Function.iterate_succ_apply, Function.iterate_zero, id, next, step]
    cases result <;> simp only [Stage.step, hround, Stage.release_eq, hclock]
  have hended : ((next c)^[2 + (3 + j)] x).stage.result? = some result := by
    rw [hlast]
    rfl
  exact ⟨m'.shutdown.2, (iterate_next_eq_run hended).symm.trans hlast⟩

end Exchange

end FramedRelay
