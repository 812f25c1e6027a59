import FramedRelay.Proofs.Frame.Rounds

/-!
# What sending has written

A round of sending moves bytes from those left to those written: together they stay the same
(`Sending.step_again`). Over a link that accepts something of every offer and can be flushed
(`Link.Accepting`), a run that is not held up has nothing to fail with, so it writes all that was
left (`Sending.run_of_accepting`).
-/

namespace FramedRelay

/-- The link accepts at least one byte of every offer that is not interrupted, and can be
flushed. -/
structure Link.Accepting (l : Link) : Prop where
  writes : ∀ a ∈ l.writes, a.result = .ok none ∨ (∃ n, a.result = .ok (some (n + 1))) ∨
    ∃ f, a.result = .error f ∧ f.isInterruption = true
  flushes : ∀ a ∈ l.flushes, a.result = .ok ()

namespace Link

theorem written_ready (l : Link) (d : Deadline) (direction : Direction) :
    (l.ready d direction).2.written = l.written := by
  obtain ⟨clock, arms, history, h, -⟩ := l.ready_eq d direction
  rw [h]
  rfl

theorem written_flush (l : Link) : l.flush.2.written = l.written := by
  obtain ⟨clock, flushes, done, h, -⟩ := l.flush_eq
  rw [h]
  rfl

theorem written_write_ok {l m : Link} {offered : Bytes} {count : Nat}
    (h : l.write offered = (.ok count, m)) :
    m.written = l.written ++ offered.take count := by
  unfold write at h
  split at h
  · simp only [Prod.mk.injEq, Except.ok.injEq] at h
    obtain ⟨rfl, rfl⟩ := h
    simp [written]
  · simp only [Prod.mk.injEq, Except.ok.injEq] at h
    obtain ⟨rfl, rfl⟩ := h
    simp [written]
  · simp at h

theorem written_write_error {l m : Link} {offered : Bytes} {f : Fault}
    (h : l.write offered = (.error f, m)) : m.written = l.written := by
  unfold write at h
  split at h
  · simp at h
  · simp at h
  · simp only [Prod.mk.injEq] at h
    obtain ⟨-, rfl⟩ := h
    rfl

namespace Accepting

variable {l : Link}

theorem ready (h : l.Accepting) (d : Deadline) (direction : Direction) :
    (l.ready d direction).2.Accepting := by
  obtain ⟨clock, arms, history, heq, -⟩ := l.ready_eq d direction
  rw [heq]
  exact ⟨h.writes, h.flushes⟩

theorem write (h : l.Accepting) (offered : Bytes) : (l.write offered).2.Accepting := by
  obtain ⟨clock, writes, pieces, count?, heq, -, hsuffix⟩ := l.write_eq offered
  rw [heq]
  exact ⟨fun a ha => h.writes a (hsuffix.subset ha), h.flushes⟩

theorem flush (h : l.Accepting) : l.flush.2.Accepting := by
  obtain ⟨clock, flushes, done, heq, -, hsuffix⟩ := l.flush_eq
  rw [heq]
  exact ⟨h.writes, fun a ha => h.flushes a (hsuffix.subset ha)⟩

/-- An offer is interrupted, or some of it is accepted. -/
theorem write_fst (h : l.Accepting) (b : UInt8) (bs : Bytes) :
    (∃ n, (l.write (b :: bs)).1 = .ok (n + 1)) ∨
      ∃ f, (l.write (b :: bs)).1 = .error f ∧ f.isInterruption = true := by
  have hwrites := h.writes
  unfold Link.write
  cases hl : l.writes with
  | nil => exact Or.inl ⟨bs.length, rfl⟩
  | cons a writes =>
    obtain ⟨delay, result⟩ := a
    rcases hwrites ⟨delay, result⟩ (by simp [hl]) with h | ⟨n, h⟩ | ⟨f, h, hf⟩
    · obtain rfl : result = .ok none := h
      exact Or.inl ⟨bs.length, by simp⟩
    · obtain rfl : result = .ok (some (n + 1)) := h
      exact Or.inl ⟨min n bs.length, by simp [Nat.succ_min_succ]⟩
    · obtain rfl : result = .error f := h
      exact Or.inr ⟨f, rfl, hf⟩

theorem flush_fst (h : l.Accepting) : l.flush.1 = .ok () := by
  have hflushes := h.flushes
  unfold Link.flush
  cases hl : l.flushes with
  | nil => rfl
  | cons a flushes =>
    obtain ⟨delay, result⟩ := a
    obtain rfl : result = .ok () := hflushes ⟨delay, result⟩ (by simp [hl])
    rfl

end Accepting

end Link

namespace Sending

variable {d : Deadline} {size : Nat} {left left' : Bytes} {l l' : Link} {events : List Event}

/-- A round that is not the last writes the front of what is left. -/
theorem step_again (h : step d size left l = ⟨.again left', l', events⟩) :
    l'.written ++ left' = l.written ++ left := by
  cases left with
  | nil =>
    simp only [step, flush] at h
    split at h
    · simp [Progress.ok] at h
    · simp [Progress.fail] at h
  | cons b bs =>
    have hready := l.written_ready d .write
    simp only [step, offer] at h
    split at h
    · simp [Progress.fail] at h
    · next m hm =>
      rw [hm] at hready
      split at h
      · simp [Progress.fail] at h
      · next count m' _ hwrite =>
        simp only [Progress.again, Progress.mk.injEq, Round.again.injEq] at h
        obtain ⟨rfl, rfl, -⟩ := h
        rw [Link.written_write_ok hwrite, hready, List.append_assoc, List.take_append_drop]
      · next f m' hwrite =>
        split at h
        · simp only [Progress.again, Progress.mk.injEq, Round.again.injEq] at h
          obtain ⟨rfl, rfl, -⟩ := h
          rw [Link.written_write_error hwrite, hready]
        · simp [Progress.fail] at h

/-- While bytes are left, an accepting link that is not held up makes another round. -/
theorem step_offer_of_accepting (size : Nat) (hl : l.Accepting) {b : UInt8} {bs : Bytes}
    (hready : (l.ready d .write).1 = .ok ()) :
    ∃ left' l', step d size (b :: bs) l = ⟨.again left', l', []⟩ := by
  have hm := hl.ready d .write
  rcases hstep : l.ready d .write with ⟨result, m⟩
  rw [hstep] at hready hm
  obtain rfl : result = .ok () := hready
  rcases hm.write_fst b bs with ⟨n, hn⟩ | ⟨f, hf, hinterrupted⟩
  · rcases hwrite : m.write (b :: bs) with ⟨count, m'⟩
    rw [hwrite] at hn
    obtain rfl : count = .ok (n + 1) := hn
    exact ⟨(b :: bs).drop (n + 1), m', by simp [step, offer, hstep, hwrite, Progress.again]⟩
  · rcases hwrite : m.write (b :: bs) with ⟨count, m'⟩
    rw [hwrite] at hf
    obtain rfl : count = .error f := hf
    exact ⟨b :: bs, m', by simp [step, offer, hstep, hwrite, hinterrupted, Progress.again]⟩

/-- Over an accepting link, a run that is not held up succeeds, with all bytes written once and
in order. -/
theorem run_of_accepting (hprompt : Prompt d size left l) (hl : l.Accepting) :
    (run d size left l).1 = .ok () ∧ (run d size left l).2.1.written = l.written ++ left ∧
      (run d size left l).2.1.Accepting := by
  obtain ⟨left', m, events, hlead, hlast⟩ := exists_last_round d size left l
  have hm : m.Accepting := keeps_leads (I := Link.Accepting) d (fun _ h => h.ready d .write)
    (fun _ bs h => h.write bs) (fun _ h => h.flush) hlead hl
  have hwritten : m.written ++ left' = l.written ++ left :=
    hlead.invariant (I := fun left' m => m.written ++ left' = l.written ++ left)
      (fun hround hwritten => (step_again hround).trans hwritten) rfl
  cases left' with
  | cons b bs =>
    obtain ⟨left'', m', hround⟩ := step_offer_of_accepting size hm
      (hprompt (b :: bs) m hlead (List.cons_ne_nil b bs))
    rw [hround] at hlast
    cases hlast
  | nil =>
    have hflush := hm.flush_fst
    have hm' := hm.flush
    have hsame := m.written_flush
    simp only [step, flush] at hlast
    split at hlast
    · next m' h =>
      simp only [Progress.ok, Progress.mk.injEq, Round.ended.injEq] at hlast
      obtain ⟨hresult, rfl, -⟩ := hlast
      rw [h] at hm' hsame
      exact ⟨hresult.symm, by rw [hsame, ← hwritten, List.append_nil], hm'⟩
    · next f m' h => simp [h] at hflush

end Sending

end FramedRelay
