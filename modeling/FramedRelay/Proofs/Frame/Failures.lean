import FramedRelay.Proofs.Frame.Emission
import FramedRelay.Proofs.Frame.Reception

/-!
# How sending and receiving end

What the last round of a run can come to. A failure of sending or of receiving says that time ran
out in this stage, or why the stage failed (`Deadline.Yields`). The last round of sending writes
nothing, and if there was nothing left to write then it is the flush that failed
(`Sending.step_ended`). Receiving ends with a reply, a failure, a reply that is too large, or a
buffer that cannot be had, which takes a header that announces one and a limit that admits it
(`Receiving.step_result`).
-/

namespace FramedRelay

variable {d : Deadline} {direction : Direction} {f : Failure} {l l' : Link} {events : List Event}

/-- A failure of a stage: its time has run out, or transferring bytes has failed. -/
def Deadline.Yields (d : Deadline) (direction : Direction) (f : Failure) : Prop :=
  f = .timedOut d.stage ∨ ∃ reason, f = direction.failure reason

theorem Deadline.yields_failureOf (d : Deadline) (direction : Direction) (fault : Fault) :
    d.Yields direction (d.failureOf direction fault) := by
  unfold failureOf
  split
  · exact Or.inl rfl
  · exact Or.inr ⟨_, rfl⟩

theorem Link.yields_of_ready (h : l.ready d direction = (.error f, l')) :
    d.Yields direction f := by
  unfold ready at h
  split at h
  · simp only [Prod.mk.injEq, Except.error.injEq] at h
    exact Or.inl h.1.symm
  · split at h
    · simp at h
    · simp only [Prod.mk.injEq, Except.error.injEq] at h
      exact Or.inr ⟨_, h.1.symm⟩

/-! ## Sending -/

namespace Sending

variable {size : Nat} {left left' : Bytes} {result : Except Stop Unit}

/-- What the last round of sending comes to, from the bytes left: all were sent and flushed, or
there is a failure, which is that of the flush if all were sent. -/
inductive Ends (d : Deadline) (left : Bytes) (l l' : Link) : Except Stop Unit → Prop
  | sent (hleft : left = []) : Ends d left l l' (.ok ())
  | failed {f : Failure} (hf : d.Yields .write f)
      (hflush : left = [] → l'.operations = l.operations ++ [.flush false]) :
      Ends d left l l' (.error (.failure f))

theorem ends_flush (h : flush d size l = ⟨.ended result, l', events⟩) : Ends d [] l l' result := by
  unfold flush at h
  split at h
  · simp only [Progress.ok, Progress.mk.injEq, Round.ended.injEq] at h
    obtain ⟨rfl, -, -⟩ := h
    exact .sent rfl
  · next fault m hm =>
    simp only [Progress.fail, Progress.mk.injEq, Round.ended.injEq] at h
    obtain ⟨rfl, rfl, -⟩ := h
    refine .failed (d.yields_failureOf .write fault) fun _ => ?_
    unfold Link.flush at hm
    split at hm
    · simp at hm
    · simp at hm
    · obtain ⟨-, rfl⟩ := Prod.mk.inj hm
      simp [Link.operations]

theorem ends_offer (hleft : left ≠ []) (h : offer d left l = ⟨.ended result, l', events⟩) :
    l'.written = l.written ∧ Ends d left l l' result := by
  have hready := l.written_ready d .write
  have hnever {ops : List Operation} (h : left = []) : ops = l.operations ++ [.flush false] :=
    absurd h hleft
  unfold offer at h
  split at h
  · next failure m hm =>
    simp only [Progress.fail, Progress.mk.injEq, Round.ended.injEq] at h
    obtain ⟨rfl, rfl, -⟩ := h
    rw [hm] at hready
    exact ⟨hready, .failed (Link.yields_of_ready hm) hnever⟩
  · next m hm =>
    rw [hm] at hready
    split at h
    · next m' hwrite =>
      simp only [Progress.fail, Progress.mk.injEq, Round.ended.injEq] at h
      obtain ⟨rfl, rfl, -⟩ := h
      have hsame := Link.written_write_ok hwrite
      rw [List.take_zero, List.append_nil] at hsame
      exact ⟨hsame.trans hready, .failed (Or.inr ⟨_, rfl⟩) hnever⟩
    · simp [Progress.again] at h
    · next fault m' hwrite =>
      split at h
      · simp [Progress.again] at h
      · simp only [Progress.fail, Progress.mk.injEq, Round.ended.injEq] at h
        obtain ⟨rfl, rfl, -⟩ := h
        exact ⟨(Link.written_write_error hwrite).trans hready,
          .failed (d.yields_failureOf .write fault) hnever⟩

/-- The last round writes nothing. -/
theorem step_ended (h : step d size left l = ⟨.ended result, l', events⟩) :
    l'.written = l.written ∧ Ends d left l l' result := by
  cases left with
  | nil =>
    refine ⟨?_, ends_flush h⟩
    have hsame := l.written_flush
    simp only [step, flush] at h
    split at h
    · next m hm =>
      simp only [Progress.ok, Progress.mk.injEq] at h
      obtain ⟨-, rfl, -⟩ := h
      rwa [hm] at hsame
    · next fault m hm =>
      simp only [Progress.fail, Progress.mk.injEq] at h
      obtain ⟨-, rfl, -⟩ := h
      rwa [hm] at hsame
  | cons b bs => exact ends_offer (List.cons_ne_nil b bs) h

end Sending

/-! ## Receiving -/

namespace Receiving

variable {framing : Framing} {limit : Nat} {s : Receiving} {result : Except Stop Bytes}

/-- What the last round of receiving can come to. -/
inductive Result (framing : Framing) (limit : Nat) (d : Deadline) : Except Stop Bytes → Prop
  | reply (bs : Bytes) : Result framing limit d (.ok bs)
  | failed {f : Failure} (hf : d.Yields .read f) : Result framing limit d (.error (.failure f))
  | tooLarge {size : Nat} (h : limit < size) :
      Result framing limit d (.error (.failure (.replyTooLarge size limit)))
  /-- A header announces more than there are buffers for, and the limit admits it. -/
  | unbuffered (hframing : framing = .lengthPrefixed) (h : bufferLimit ≤ limit) :
      Result framing limit d (.error (.abort .capacityOverflow))

theorem result_atEnd (h : s.atEnd l = ⟨.ended result, l', events⟩) :
    Result framing limit d result := by
  cases s with
  | line reply =>
    simp only [atEnd, Progress.ok, Progress.mk.injEq, Round.ended.injEq] at h
    obtain ⟨rfl, -⟩ := h
    exact .reply _
  | header got | body size got =>
    simp only [atEnd, Progress.fail, Progress.mk.injEq, Round.ended.injEq] at h
    obtain ⟨rfl, -⟩ := h
    exact .failed (Or.inr ⟨_, rfl⟩)

theorem result_takeLine {reply piece : Bytes}
    (h : takeLine limit l reply piece = ⟨.ended result, l', events⟩) :
    Result framing limit d result := by
  simp only [takeLine] at h
  split at h
  · next hlimit =>
    simp only [Progress.fail, Progress.mk.injEq, Round.ended.injEq] at h
    obtain ⟨rfl, -⟩ := h
    exact .tooLarge hlimit
  · split at h
    · simp only [Progress.ok, Progress.mk.injEq, Round.ended.injEq] at h
      obtain ⟨rfl, -⟩ := h
      exact .reply _
    · simp [Progress.again] at h

theorem result_takeHeader {header : Bytes}
    (h : takeHeader limit l header = ⟨.ended result, l', events⟩) :
    Result .lengthPrefixed limit d result := by
  simp only [takeHeader] at h
  split at h
  · next hlimit =>
    simp only [Progress.fail, Progress.mk.injEq, Round.ended.injEq] at h
    obtain ⟨rfl, -⟩ := h
    exact .tooLarge hlimit
  · next hlimit =>
    split at h
    · next hbuffer =>
      simp only [Progress.abort, Progress.mk.injEq, Round.ended.injEq] at h
      obtain ⟨rfl, -⟩ := h
      exact .unbuffered rfl (Nat.le_trans hbuffer (Nat.le_of_not_lt hlimit))
    · split at h
      · simp only [Progress.ok, Progress.mk.injEq, Round.ended.injEq] at h
        obtain ⟨rfl, -⟩ := h
        exact .reply _
      · simp [Progress.again] at h

theorem result_take {piece : Bytes} (hs : Sound limit framing s)
    (h : s.take limit l piece = ⟨.ended result, l', events⟩) : Result framing limit d result := by
  cases s with
  | line reply => exact result_takeLine h
  | header got =>
    obtain rfl : framing = .lengthPrefixed := by
      cases framing with
      | newline => exact hs.elim
      | lengthPrefixed => rfl
    simp only [take] at h
    split at h
    · simp [Progress.again] at h
    · exact result_takeHeader h
  | body size got =>
    simp only [take] at h
    split at h
    · simp [Progress.again] at h
    · simp only [Progress.ok, Progress.mk.injEq, Round.ended.injEq] at h
      obtain ⟨rfl, -⟩ := h
      exact .reply _

/-- What the last round comes to. -/
theorem step_result (hs : Sound limit framing s)
    (h : step limit d s l = ⟨.ended result, l', events⟩) : Result framing limit d result := by
  unfold step at h
  split at h
  · next failure m hm =>
    simp only [Progress.fail, Progress.mk.injEq, Round.ended.injEq] at h
    obtain ⟨rfl, -⟩ := h
    exact .failed (Link.yields_of_ready hm)
  · split at h
    · exact result_atEnd h
    · exact result_take hs h
    · next fault m hread =>
      split at h
      · simp [Progress.again] at h
      · simp only [Progress.fail, Progress.mk.injEq, Round.ended.injEq] at h
        obtain ⟨rfl, -⟩ := h
        exact .failed (d.yields_failureOf .read fault)

end Receiving

end FramedRelay
