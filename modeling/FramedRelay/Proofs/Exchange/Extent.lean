import FramedRelay.Forwarder
import FramedRelay.Proofs.Exchange.Connections
import FramedRelay.Proofs.Frame.Deadlines
import FramedRelay.Proofs.Frame.Failures

/-!
# How far an exchange got

The outcome of an exchange tells what the destination has seen of it (`Conclusion`): nothing if
connecting failed, a front of the frame if sending failed (`Link.PartlySent`), and the whole frame
before anything was read if the outcome is a reply or comes of waiting for one
(`Link.Delivered`). Each stage stands for what holds of the connection so far, which every step
keeps (`Stage.Stands.step`), so every run comes to such a conclusion (`conclusion_exchange`).
-/

namespace FramedRelay

/-! ## What was done to a connection -/

namespace Link

variable {frame left : Bytes} {first l l' l'' : Link} {direction : Direction} {op : Operation}

/-- What was done to a link to make it another transferred no bytes in a direction. -/
def Quiet (direction : Direction) (l l' : Link) : Prop :=
  ∃ ops, l'.operations = l.operations ++ ops ∧ ∀ op ∈ ops, op.transfers? ≠ some direction

namespace Quiet

theorem refl (direction : Direction) (l : Link) : l.Quiet direction l :=
  ⟨[], (List.append_nil _).symm, by simp⟩

theorem trans (h : l.Quiet direction l') (h' : l'.Quiet direction l'') :
    l.Quiet direction l'' := by
  obtain ⟨ops, heq, hops⟩ := h
  obtain ⟨ops', heq', hops'⟩ := h'
  refine ⟨ops ++ ops', by rw [heq', heq, List.append_assoc], fun op hop => ?_⟩
  exact (List.mem_append.1 hop).elim (hops op) (hops' op)

theorem of_history (h : l'.history = op :: l.history) (hop : op.transfers? ≠ some direction) :
    l.Quiet direction l' :=
  ⟨[op], by simp [operations, h], by simpa using hop⟩

end Quiet

theorem quiet_ready (l : Link) (d : Deadline) (direction direction' : Direction) :
    l.Quiet direction (l.ready d direction').2 := by
  obtain ⟨clock, arms, history, heq, -, -, rfl | ⟨span?, now, done, rfl⟩⟩ :=
    l.ready_eq d direction'
  · rw [heq]
    exact .refl direction l
  · rw [heq]
    exact .of_history rfl (by simp [Operation.transfers?])

theorem quiet_read (l : Link) (room : Nat) : l.Quiet .write (l.read room).2 := by
  obtain ⟨clock, unread, reads, count?, heq, -, -⟩ := l.read_eq room
  rw [heq]
  exact .of_history rfl (by simp [Operation.transfers?])

theorem quiet_write (l : Link) (offered : Bytes) : l.Quiet .read (l.write offered).2 := by
  obtain ⟨clock, writes, pieces, count?, heq, -, -⟩ := l.write_eq offered
  rw [heq]
  exact .of_history rfl (by simp [Operation.transfers?])

theorem quiet_flush (l : Link) (direction : Direction) : l.Quiet direction l.flush.2 := by
  obtain ⟨clock, flushes, done, heq, -, -⟩ := l.flush_eq
  rw [heq]
  exact .of_history rfl (by simp [Operation.transfers?])

theorem written_read (l : Link) (room : Nat) : (l.read room).2.written = l.written := by
  obtain ⟨clock, unread, reads, count?, heq, -, -⟩ := l.read_eq room
  rw [heq]
  rfl

theorem written_prefix_write (l : Link) (offered : Bytes) :
    l.written <+: (l.write offered).2.written := by
  rcases h : l.write offered with ⟨_ | count, m⟩
  · exact (written_write_error h).symm ▸ List.prefix_refl _
  · rw [written_write_ok h]
    exact List.prefix_append _ _

/-- A round of sending only adds to what was written. -/
theorem written_prefix_step (l : Link) (d : Deadline) (size : Nat) (left : Bytes) :
    l.written <+: (Sending.step d size left l).link.written :=
  Sending.keeps_step (I := fun m => l.written <+: m.written) d
    (fun m h => m.written_ready d .write ▸ h) (fun m bs h => h.trans (m.written_prefix_write bs))
    (fun m h => m.written_flush ▸ h) size left (List.prefix_refl _)

/-! ## How much of a frame was sent -/

/-- The frame is being sent: a front of it was written, the rest is left, and nothing was read. -/
structure Filling (frame left : Bytes) (first l : Link) : Prop where
  written : ∃ sent, l.written = first.written ++ sent ∧ sent ++ left = frame
  unread : first.Quiet .read l

/-- A front of the frame was sent, and not all of it unless it was the flush after the last byte
that failed. -/
structure PartlySent (frame : Bytes) (first last : Link) : Prop where
  written : ∃ sent, last.written = first.written ++ sent ∧ sent <+: frame ∧
    (sent = frame → ∃ earlier done, last.operations = earlier ++ [.flush false, .shutdown done])

/-- The whole frame was sent, once, and nothing was read until then. -/
structure Delivered (frame : Bytes) (first last : Link) : Prop where
  written : last.written = first.written ++ frame
  order : ∃ earlier later, last.operations = first.operations ++ earlier ++ later ∧
    (∀ op ∈ earlier, op.transfers? ≠ some .read) ∧ ∀ op ∈ later, op.transfers? ≠ some .write

namespace Filling

variable {d : Deadline} {size : Nat} {left' : Bytes} {events : List Event}
  {result : Except Stop Unit}

/-- A round of sending reads nothing. -/
theorem unread_step (h : Filling frame left first l) (d : Deadline) (size : Nat) :
    first.Quiet .read (Sending.step d size left l).link :=
  Sending.keeps_step (I := Quiet .read first) d (fun l h => h.trans (l.quiet_ready d _ _))
    (fun l bs h => h.trans (l.quiet_write bs)) (fun l h => h.trans (l.quiet_flush _)) size left
    h.unread

/-- A round that is not the last moves bytes from those left to those written. -/
theorem again (h : Filling frame left first l)
    (hstep : Sending.step d size left l = ⟨.again left', l', events⟩) :
    Filling frame left' first l' := by
  have hunread := h.unread_step d size
  rw [hstep] at hunread
  obtain ⟨sent, hwritten, hframe⟩ := h.written
  obtain ⟨more, hmore⟩ := l.written_prefix_step d size left
  rw [hstep] at hmore
  have hmoved : more ++ left' = left := by
    have := Sending.step_again hstep
    rwa [← hmore, List.append_assoc, List.append_cancel_left_eq] at this
  refine ⟨⟨sent ++ more, ?_, ?_⟩, hunread⟩
  · rw [← hmore, hwritten, List.append_assoc]
  · rw [List.append_assoc, hmoved, hframe]

/-- A last round that fails leaves a front of the frame sent. -/
theorem partlySent (h : Filling frame left first l) {f : Failure}
    (hstep : Sending.step d size left l = ⟨.ended (.error (.failure f)), l', events⟩) :
    PartlySent frame first l'.shutdown.2 := by
  obtain ⟨sent, hwritten, hframe⟩ := h.written
  obtain ⟨hsame, hends⟩ := Sending.step_ended hstep
  obtain ⟨done, hshutdown⟩ := l'.shutdown_eq
  rw [hshutdown]
  refine ⟨sent, hsame.trans hwritten, ⟨left, hframe⟩, fun hall => ?_⟩
  have hleft : left = [] := List.append_right_eq_self.1 (hframe.trans hall.symm)
  cases hends with
  | failed hf hflush =>
    refine ⟨l.operations, done, ?_⟩
    have hlast := hflush hleft
    simp only [operations] at hlast ⊢
    rw [List.reverse_cons, hlast, List.append_assoc]
    rfl

/-- A last round that succeeds leaves the whole frame sent. -/
theorem delivered (h : Filling frame left first l)
    (hstep : Sending.step d size left l = ⟨.ended (.ok ()), l', events⟩) :
    Delivered frame first l' := by
  have hunread := h.unread_step d size
  rw [hstep] at hunread
  obtain ⟨sent, hwritten, hframe⟩ := h.written
  obtain ⟨hsame, hends⟩ := Sending.step_ended hstep
  cases hends with
  | sent hleft =>
    rw [hleft, List.append_nil] at hframe
    obtain ⟨ops, heq, hops⟩ := hunread
    exact ⟨hframe ▸ hsame.trans hwritten, ops, [], heq.trans (List.append_nil _).symm, hops,
      by simp⟩

end Filling

namespace Delivered

/-- What writes nothing leaves the frame delivered. -/
theorem quiet (h : Delivered frame first l) (hquiet : l.Quiet .write l')
    (hwritten : l'.written = l.written) : Delivered frame first l' := by
  obtain ⟨earlier, later, heq, hearlier, hlater⟩ := h.order
  obtain ⟨ops, heq', hops⟩ := hquiet
  refine ⟨hwritten.trans h.written, earlier, later ++ ops, ?_, hearlier, fun op hop => ?_⟩
  · rw [heq', heq, List.append_assoc]
  · exact (List.mem_append.1 hop).elim (hlater op) (hops op)

theorem step (h : Delivered frame first l) (limit : Nat) (d : Deadline) (s : Receiving) :
    Delivered frame first (s.step limit d l).link :=
  Receiving.keeps_step (I := Delivered frame first) limit d
    (fun l h => h.quiet (l.quiet_ready d _ _) (l.written_ready d .read))
    (fun l room h => h.quiet (l.quiet_read room) (l.written_read room)) s h

theorem shutdown (h : Delivered frame first l) : Delivered frame first l.shutdown.2 := by
  obtain ⟨done, heq⟩ := l.shutdown_eq
  rw [heq]
  exact h.quiet (.of_history rfl (by simp [Operation.transfers?])) rfl

end Delivered

end Link

/-! ## Which stage has failed -/

namespace Failure

variable {d : Destination} {f : Failure}

/-- Connecting to the destination has failed. -/
def IsConnecting (d : Destination) (f : Failure) : Prop :=
  f = .timedOut ("connecting to " ++ d.display) ∨ ∃ reason, f = .connectFailed reason

/-- Sending the frame has failed. -/
def IsSending (f : Failure) : Prop :=
  f = .timedOut "sending request" ∨ ∃ reason, f = .sendFailed reason

/-- Receiving the reply has failed. -/
def IsReceiving (f : Failure) : Prop :=
  f = .timedOut "waiting for reply" ∨ (∃ reason, f = .receiveFailed reason) ∨
    ∃ size limit, f = .replyTooLarge size limit

/-- No other stage is worded with a c first. -/
theorem connecting_ne {stage : String} (h : stage.toList.head? ≠ some 'c') (s : String) :
    "connecting to " ++ s ≠ stage := by
  rintro rfl
  simp at h

theorem IsConnecting.not_isSending (h : f.IsConnecting d) : ¬f.IsSending := by
  rcases h with rfl | ⟨reason, rfl⟩
  · rintro (h | ⟨_, h⟩)
    · exact connecting_ne (by simp) _ (Failure.timedOut.inj h)
    · cases h
  · simp [IsSending]

theorem IsConnecting.not_isReceiving (h : f.IsConnecting d) : ¬f.IsReceiving := by
  rcases h with rfl | ⟨reason, rfl⟩
  · rintro (h | ⟨_, h⟩ | ⟨_, _, h⟩)
    · exact connecting_ne (by simp) _ (Failure.timedOut.inj h)
    · cases h
    · cases h
  · simp [IsReceiving]

theorem IsSending.not_isReceiving (h : f.IsSending) : ¬f.IsReceiving := by
  rcases h with rfl | ⟨reason, rfl⟩ <;> simp [IsReceiving]

end Failure

/-- Receiving fails with a failure of receiving. -/
theorem Receiving.Result.isReceiving {framing : Framing} {limit : Nat} {d : Deadline} {f : Failure}
    (h : Result framing limit d (.error (.failure f))) (hd : d.stage = "waiting for reply") :
    f.IsReceiving := by
  cases h with
  | failed hf => exact hf.elim (fun h => Or.inl (hd ▸ h)) fun h => Or.inr (Or.inl h)
  | tooLarge => exact Or.inr (Or.inr ⟨_, _, rfl⟩)

/-! ## What the outcome tells -/

/-- How an exchange over the first link that accepts comes to its outcome and its last link. -/
inductive Conclusion (c : Config) (payload : Bytes) (accepted? : Option Link) :
    Except Stop Bytes → Option Link → Prop
  /-- No address accepts. -/
  | unopened {f : Failure} (haccepted : accepted? = none)
      (hf : f.IsConnecting c.destination) :
      Conclusion c payload accepted? (.error (.failure f)) none
  /-- The frame cannot be sent. -/
  | unsent {f : Failure} {first last : Link} (haccepted : accepted? = some first)
      (hf : f.IsSending)
      (hsent : Link.PartlySent (c.framing.encode payload) first last) :
      Conclusion c payload accepted? (.error (.failure f)) (some last)
  /-- The frame is sent, and receiving the reply has a result. -/
  | sent {d : Deadline} {result : Except Stop Bytes} {first last : Link}
      (haccepted : accepted? = some first) (hd : d.stage = "waiting for reply")
      (hresult : Receiving.Result c.framing c.maxReplyBytes d result)
      (hsent : Link.Delivered (c.framing.encode payload) first last) :
      Conclusion c payload accepted? result (some last)
  /-- The clock cannot show the deadline of a stage. -/
  | unscheduled {first last : Link} (haccepted : accepted? = some first)
      (hclock : last.clock.after? c.sendTimeout = none ∨
        last.clock.after? c.receiveTimeout = none) :
      Conclusion c payload accepted? (.error (.abort .clockOverflow)) (some last)

theorem Destination.isConnecting_connectFailure (d : Destination) (f : Fault) :
    (d.connectFailure f).IsConnecting d := by
  unfold connectFailure
  split
  · exact Or.inl rfl
  · exact Or.inr ⟨_, rfl⟩

namespace Stage

variable {c : Config} {payload : Bytes} {accepted? : Option Link} {s : Stage} {first l : Link}

/-- What holds of the connection at a stage, when `accepted?` is the first link that accepts. -/
def Stands (c : Config) (payload : Bytes) (accepted? : Option Link) : Stage → Prop
  | dialling _ left _ => Attempt.accepted? left = accepted?
  | sending d left link => d.stage = "sending request" ∧ ∃ first, accepted? = some first ∧
      Link.Filling (c.framing.encode payload) left first link
  | receiving d state link => d.stage = "waiting for reply" ∧
      Receiving.Sound c.maxReplyBytes c.framing state ∧ ∃ first, accepted? = some first ∧
        Link.Delivered (c.framing.encode payload) first link
  | releasing result link => Conclusion c payload accepted? result (some link.shutdown.2)
  | ended result clock link? => Conclusion c payload accepted? result link? ∧
      ∀ link, link? = some link → link.clock = clock

namespace Stands

theorem connect {clock : Instant} (haccepted : accepted? = some l) :
    Stands c payload accepted? (Stage.connect c payload { l with clock }).stage := by
  unfold Stage.connect
  split
  · next h =>
    refine Conclusion.unscheduled haccepted (Or.inl ?_)
    rw [Link.clock_shutdown]
    exact Option.map_eq_none_iff.1 h
  · next d h =>
    have hfilling : Link.Filling (c.framing.encode payload) (c.framing.encode payload) l
        { l with clock } := ⟨⟨[], (List.append_nil _).symm, rfl⟩, .refl .read l⟩
    obtain rfl := Deadline.eq_of_start? h
    exact ⟨rfl, l, haccepted, hfilling⟩

theorem await {events : List Event} (haccepted : accepted? = some first)
    (h : Link.Delivered (c.framing.encode payload) first l) :
    Stands c payload accepted? (Stage.await c l events).stage := by
  unfold Stage.await
  split
  · next h =>
    refine Conclusion.unscheduled haccepted (Or.inr ?_)
    rw [Link.clock_shutdown]
    exact Option.map_eq_none_iff.1 h
  · next d hd =>
    obtain rfl := Deadline.eq_of_start? hd
    exact ⟨rfl, Receiving.sound_start _ _, first, haccepted, h⟩

/-- Every step keeps what holds of the connection. -/
theorem step (h : s.Stands c payload accepted?) :
    (s.step c payload).stage.Stands c payload accepted? := by
  cases s with
  | dialling clock left last? =>
    cases left with
    | nil => exact ⟨.unopened h.symm (c.destination.isConnecting_connectFailure _), by simp⟩
    | cons a left =>
      simp only [Stage.step]
      split
      · next link ha => exact connect (h.symm.trans (Attempt.accepted?_cons_ok ha))
      · next f ha => exact (Attempt.accepted?_cons_error ha).symm.trans h
  | sending d left link =>
    obtain ⟨hd, first, haccepted, hfilling⟩ := h
    simp only [Stage.step]
    split
    · next hround => exact ⟨hd, first, haccepted, hfilling.again hround⟩
    · next hround => exact await haccepted (hfilling.delivered hround)
    · next stop link' events hround =>
      obtain ⟨-, hends⟩ := Sending.step_ended hround
      cases hends with
      | failed hf hflush =>
        exact .unsent haccepted (hf.elim (fun h => Or.inl (hd ▸ h)) Or.inr)
          (hfilling.partlySent hround)
  | receiving d state link =>
    obtain ⟨hd, hsound, first, haccepted, hdelivered⟩ := h
    have hdelivered' := hdelivered.step c.maxReplyBytes d state
    simp only [Stage.step]
    split
    · next hround =>
      rw [hround] at hdelivered'
      exact ⟨hd, (Receiving.step_again hsound hround).1, first, haccepted, hdelivered'⟩
    · next hround =>
      rw [hround] at hdelivered'
      exact .sent haccepted hd (Receiving.step_result hsound hround) hdelivered'.shutdown
    · next hround =>
      rw [hround] at hdelivered'
      exact .sent haccepted hd (Receiving.step_result hsound hround) hdelivered'.shutdown
  | releasing result link =>
    rw [Stage.step, release_eq]
    exact ⟨h, fun link' hlink => Option.some.inj hlink ▸ link.clock_shutdown⟩
  | ended result clock link? => exact h

end Stands

end Stage

/-- Every run comes to a conclusion, and is over when its connection is closed. -/
theorem conclusion_exchange (c : Config) (payload : Bytes) (attempts : List Attempt) :
    Conclusion c payload (Attempt.accepted? attempts) (forward c payload attempts)
      (exchange c payload attempts).1.stage.connection? ∧
    ∀ link, (exchange c payload attempts).1.stage.connection? = some link →
      link.clock = (exchange c payload attempts).1.stage.clock := by
  have hstands : (exchange c payload attempts).1.stage.Stands c payload
      (Attempt.accepted? attempts) :=
    Exchange.run_invariant (x := .start payload 0 attempts)
      (I := Stage.Stands c payload (Attempt.accepted? attempts)) (fun _ h => h.step) rfl
  obtain ⟨clock, link?, hend⟩ := Exchange.exists_eq_ended c payload attempts
  rw [hend] at hstands ⊢
  exact hstands

/-! ## Outcome by outcome -/

namespace Conclusion

variable {c : Config} {payload : Bytes} {accepted? link? : Option Link} {f : Failure}
  {result : Except Stop Bytes}

theorem partlySent (h : Conclusion c payload accepted? (.error (.failure f)) link?)
    (hf : f.IsSending) : ∃ first last, accepted? = some first ∧ link? = some last ∧
      Link.PartlySent (c.framing.encode payload) first last := by
  cases h with
  | unopened _ hf' => exact (hf'.not_isSending hf).elim
  | unsent haccepted _ hsent => exact ⟨_, _, haccepted, rfl, hsent⟩
  | sent _ hd hresult => exact (hf.not_isReceiving (hresult.isReceiving hd)).elim

theorem delivered (h : Conclusion c payload accepted? result link?)
    (hresult : (∃ reply, result = .ok reply) ∨
      ∃ f, result = .error (.failure f) ∧ f.IsReceiving) :
    ∃ first last, accepted? = some first ∧ link? = some last ∧
      Link.Delivered (c.framing.encode payload) first last := by
  cases h with
  | unopened _ hf | unsent _ hf =>
    obtain ⟨reply, hreply⟩ | ⟨f, hsame, hf'⟩ := hresult
    · cases hreply
    · cases hsame
      exact (hf.not_isReceiving hf').elim
  | sent haccepted _ _ hsent => exact ⟨_, _, haccepted, rfl, hsent⟩
  | unscheduled => simp at hresult

end Conclusion

/-- An exchange that fails has failed at connecting, at sending or at receiving. -/
theorem failure_of_forward {c : Config} {payload : Bytes} {attempts : List Attempt} {f : Failure}
    (h : forward c payload attempts = .error (.failure f)) :
    f.IsConnecting c.destination ∨ f.IsSending ∨ f.IsReceiving := by
  have hconclusion := (conclusion_exchange c payload attempts).1
  rw [h] at hconclusion
  generalize (exchange c payload attempts).1.stage.connection? = link? at hconclusion
  cases hconclusion with
  | unopened _ hf => exact Or.inl hf
  | unsent _ hf => exact Or.inr (Or.inl hf)
  | sent _ hd hresult => exact Or.inr (Or.inr (hresult.isReceiving hd))

/-- So has one whose caller is told of a failure, unless it was abandoned. -/
theorem failure_of_report {c : Config} {payload : Bytes} {attempts : List Attempt} {f : Failure}
    (h : (Config.report (forward c payload attempts)).1 = .error f) :
    f = .internal "forwarding task did not complete" ∨
      f.IsConnecting c.destination ∨ f.IsSending ∨ f.IsReceiving := by
  rcases hresult : forward c payload attempts with (g | reason) | reply
  · rw [hresult] at h
    obtain rfl : g = f := Except.error.inj h
    exact Or.inr (failure_of_forward hresult)
  · rw [hresult] at h
    exact Or.inl (Except.error.inj h).symm
  · rw [hresult] at h
    cases h

end FramedRelay
