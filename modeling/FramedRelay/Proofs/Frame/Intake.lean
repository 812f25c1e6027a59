import FramedRelay.Proofs.Frame.Reception

/-!
# How much is taken off a link

The record of a link tells how many bytes its reads have given (`Link.intake`). Setting a timeout
gives none, and a read no more than it has room for. A read that finds bytes moves them from those
that the link still gives to those that it has given (`Link.intake_read`).

So a state of receiving stands for all that was taken to come to it (`Receiving.intake_leads`), and
the last round adds what its read has room for at most (`Receiving.intake_step_le`).
-/

namespace FramedRelay

/-- The bytes that an operation took off the link. -/
def Operation.given : Operation → Nat
  | .read _ (some count) => count
  | .read _ none | .arm .. | .write .. | .flush _ | .shutdown _ => 0

/-- The bytes that some operations took off the link. -/
def givenBy : List Operation → Nat
  | [] => 0
  | op :: ops => op.given + givenBy ops

namespace Link

variable {l m : Link} {room : Nat} {piece : Bytes} {f : Fault}

/-- The bytes that have been taken off a link. -/
def intake (l : Link) : Nat := givenBy l.history

/-! ## Operations -/

theorem intake_ready (l : Link) (d : Deadline) (direction : Direction) :
    (l.ready d direction).2.intake = l.intake := by
  obtain ⟨clock, arms, history, heq, -, -, hhistory⟩ := l.ready_eq d direction
  rw [heq]
  rcases hhistory with rfl | ⟨span?, now, done, rfl⟩
  · rfl
  · exact Nat.zero_add _

/-- What a read gives counts, and there was room for it. -/
theorem intake_of_read_ok (h : l.read room = (.ok piece, m)) :
    m.intake = l.intake + piece.length ∧ piece.length ≤ room := by
  unfold read at h
  split at h
  case h_4 => simp at h
  all_goals
    obtain ⟨hpiece, rfl⟩ := Prod.mk.inj h
    obtain rfl := Except.ok.inj hpiece
    exact ⟨Nat.add_comm _ _, List.length_take_le _ _⟩

theorem intake_of_read_error (h : l.read room = (.error f, m)) : m.intake = l.intake := by
  unfold read at h
  split at h
  · simp at h
  · simp at h
  · simp at h
  · obtain ⟨-, rfl⟩ := Prod.mk.inj h
    exact Nat.zero_add _

theorem intake_read_le (l : Link) (room : Nat) : (l.read room).2.intake ≤ l.intake + room := by
  rcases h : l.read room with ⟨f | piece, m⟩
  · exact (intake_of_read_error h).le.trans (Nat.le_add_right _ _)
  · obtain ⟨hintake, hroom⟩ := intake_of_read_ok h
    exact hintake.le.trans (Nat.add_le_add_left hroom _)

/-- A read of a link that gives bytes loses none of them, and one of a link that gives none takes
none. -/
theorem intake_read (l : Link) (hroom : 0 < room) :
    (l.arrivals ≠ [] →
      (l.read room).2.intake + (l.read room).2.arrivals.length = l.intake + l.arrivals.length) ∧
    (l.arrivals = [] → (l.read room).2.intake = l.intake) := by
  have hgives := l.gives_read hroom
  rcases h : l.read room with ⟨f | piece, m⟩
  · have hintake := intake_of_read_error h
    rw [h] at hgives
    refine ⟨fun hne => ?_, fun _ => hintake⟩
    cases hgives with
    | interrupted _ harrivals => rw [hintake, harrivals]
    | broken _ hnil => exact absurd hnil hne
  · have hintake := (intake_of_read_ok h).1
    rw [h] at hgives
    cases hgives with
    | piece _ harrivals =>
      refine ⟨fun _ => ?_, fun hnil => ?_⟩
      · rw [hintake, harrivals, List.length_append, Nat.add_assoc]
      · simp [hnil] at harrivals
    | closed hnil => exact ⟨fun hne => absurd hnil hne, fun _ => hintake⟩

end Link

/-! ## Rounds -/

namespace Receiving

variable {framing : Framing} {limit : Nat} {d : Deadline} {s s' : Receiving} {l l' : Link}
  {events : List Event}

/-- A round that goes on has taken what its state has gained. -/
theorem intake_again (hs : Sound limit framing s)
    (h : step limit d s l = ⟨.again s', l', events⟩) :
    l'.intake + s.taken.length = l.intake + s'.taken.length := by
  have hready := l.intake_ready d .read
  unfold step at h
  split at h
  · simp [Progress.fail] at h
  · next m hm =>
    rw [hm] at hready
    split at h
    · next m' hread =>
      obtain ⟨result, hround⟩ := (atEnd_ended m' s).2
      simp [h] at hround
    · next b bs m' hread =>
      obtain ⟨hintake, hroom⟩ := Link.intake_of_read_ok hread
      have hlink := link_take limit m' (b :: bs) s
      rw [h] at hlink
      obtain rfl : l' = m' := hlink
      rw [(take_again hs hroom h).2, List.length_append, hintake, hready]
      omega
    · next f m' hread =>
      split at h
      · simp only [Progress.again, Progress.mk.injEq, Round.again.injEq] at h
        obtain ⟨rfl, rfl, -⟩ := h
        rw [Link.intake_of_read_error hread, hready]
      · simp [Progress.fail] at h

/-- Rounds have taken what their state has gained. -/
theorem intake_leads (hs : Sound limit framing s) (h : Leads (step limit d) (s, l) (s', l')) :
    l'.intake + s.taken.length = l.intake + s'.taken.length := by
  refine (h.invariant (I := fun s' l' => Sound limit framing s' ∧
    l'.intake + s.taken.length = l.intake + s'.taken.length) ?_ ⟨hs, rfl⟩).2
  intro s₁ l₁ s₂ l₂ events hround ⟨hsound, hintake⟩
  have hround' := intake_again hsound hround
  exact ⟨(step_again hsound hround).1, by omega⟩

/-- No round takes more than its read has room for. -/
theorem intake_step_le (limit : Nat) (d : Deadline) (s : Receiving) (l : Link) :
    (step limit d s l).link.intake ≤ l.intake + s.room := by
  have hready := l.intake_ready d .read
  unfold step
  split
  · next failure m hm =>
    rw [hm] at hready
    exact hready.le.trans (Nat.le_add_right _ _)
  · next m hm =>
    rw [hm] at hready
    have hread := m.intake_read_le s.room
    rw [← hready]
    split
    · next m' h =>
      rw [h] at hread
      rwa [(atEnd_ended m' s).1]
    · next b bs m' h =>
      rw [h] at hread
      rwa [link_take limit m' (b :: bs) s]
    · next f m' h =>
      rw [h] at hread
      split <;> exact hread

/-- The read of the last round takes all that it moves off what the link still gives. -/
theorem intake_last (hroom : 0 < s.room) (hlink : l' = ((l.ready d .read).2.read s.room).2) :
    (l.arrivals ≠ [] → l'.intake + l'.arrivals.length = l.intake + l.arrivals.length) ∧
      (l.arrivals = [] → l'.intake = l.intake) := by
  have hread := (l.ready d .read).2.intake_read hroom
  rwa [l.intake_ready d .read, (arrivals_ready l d .read).1, ← hlink] at hread

end Receiving

end FramedRelay
