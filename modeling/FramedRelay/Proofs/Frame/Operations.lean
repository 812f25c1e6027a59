import FramedRelay.Frame.Receive
import FramedRelay.Frame.Send
import Mathlib.Data.List.Basic

/-!
# What the operations on a link change

Each operation takes at most one answer of its own kind, moves its time to the clock, and goes on
record; all else stays (`Link.ready_eq`, `Link.read_eq`, `Link.write_eq`, `Link.flush_eq`). A
round is at most one arming and one read or write, or a flush, so what these keep it keeps too
(`Receiving.keeps_step`, `Sending.keeps_step`).

The sum of the clock and all the time that is still scripted is `Link.horizon`. No operation
changes it, and the clock never goes beyond it.
-/

namespace FramedRelay

/-- The time that some answers take. -/
def timeOf {α : Type} : List (Answer α) → Nat
  | [] => 0
  | a :: answers => a.delay + timeOf answers

namespace Link

/-- The clock once everything scripted has been done. -/
def horizon (l : Link) : Nat :=
  l.clock + (timeOf l.arms + timeOf l.reads + timeOf l.writes + timeOf l.flushes)

theorem clock_le_horizon (l : Link) : l.clock ≤ l.horizon :=
  Nat.le_add_right _ _

/-- Setting a timeout changes the clock, the answers to come and the record. -/
theorem ready_eq (l : Link) (d : Deadline) (direction : Direction) :
    ∃ (clock : Nat) (arms : List (Answer Unit)) (history : List Operation),
      (l.ready d direction).2 = { l with clock, arms, history } ∧
      clock + timeOf arms = l.clock + timeOf l.arms ∧ arms <:+ l.arms ∧
      (history = l.history ∨
        ∃ span? now done, history = .arm direction span? now done :: l.history) := by
  unfold ready
  split
  · exact ⟨l.clock, l.arms, l.history, rfl, rfl, List.suffix_refl _, Or.inl rfl⟩
  · next left _ =>
    cases harms : l.arms with
    | nil =>
      refine ⟨l.clock, [], .arm direction (some left) l.clock true :: l.history, ?_, rfl, ?_, ?_⟩
      · simp [arm, harms]
      · exact List.suffix_refl _
      · exact Or.inr ⟨_, _, _, rfl⟩
    | cons a arms =>
      obtain ⟨delay, result⟩ := a
      have htime : l.clock + delay + timeOf arms = l.clock + timeOf (⟨delay, result⟩ :: arms) := by
        simp [timeOf, Nat.add_assoc]
      have hsuffix : arms <:+ ⟨delay, result⟩ :: arms := List.suffix_cons _ _
      cases result with
      | ok =>
        refine ⟨l.clock + delay, arms, .arm direction (some left) l.clock true :: l.history, ?_,
          htime, hsuffix, Or.inr ⟨_, _, _, rfl⟩⟩
        simp [arm, harms]
      | error f =>
        refine ⟨l.clock + delay, arms, .arm direction (some left) l.clock false :: l.history, ?_,
          htime, hsuffix, Or.inr ⟨_, _, _, rfl⟩⟩
        simp [arm, harms]

/-- A read changes the clock, what there is to read and the record. -/
theorem read_eq (l : Link) (room : Nat) :
    ∃ (clock : Nat) (unread : Bytes) (reads : List (Answer Bytes)) (count? : Option Nat),
      (l.read room).2 =
        { l with clock, unread, reads, history := .read room count? :: l.history } ∧
      clock + timeOf reads = l.clock + timeOf l.reads ∧ reads <:+ l.reads := by
  unfold read
  split
  · exact ⟨_, _, _, _, rfl, rfl, List.suffix_refl _⟩
  · next hunread hreads =>
    exact ⟨_, _, _, _, rfl, rfl, List.suffix_refl _⟩
  · next delay bs reads _ hreads =>
    refine ⟨l.clock + delay, _, reads, _, rfl, ?_, ?_⟩
    · simp [timeOf, hreads, Nat.add_assoc]
    · simp [hreads]
  · next delay f reads _ hreads =>
    refine ⟨l.clock + delay, l.unread, reads, none, rfl, ?_, ?_⟩
    · simp [timeOf, hreads, Nat.add_assoc]
    · simp [hreads]

/-- A write changes the clock, the answers to come, what was accepted and the record. -/
theorem write_eq (l : Link) (offered : Bytes) :
    ∃ (clock : Nat) (writes : List (Answer (Option Nat))) (pieces : List Bytes)
      (count? : Option Nat),
      (l.write offered).2 =
        { l with clock, writes, pieces, history := .write offered.length count? :: l.history } ∧
      clock + timeOf writes = l.clock + timeOf l.writes ∧ writes <:+ l.writes := by
  unfold write
  split
  · exact ⟨_, _, _, _, rfl, rfl, List.suffix_refl _⟩
  · next delay limit? writes hwrites =>
    refine ⟨l.clock + delay, writes, _, _, rfl, ?_, ?_⟩
    · simp [timeOf, hwrites, Nat.add_assoc]
    · simp [hwrites]
  · next delay f writes hwrites =>
    refine ⟨l.clock + delay, writes, l.pieces, none, rfl, ?_, ?_⟩
    · simp [timeOf, hwrites, Nat.add_assoc]
    · simp [hwrites]

/-- A flush changes the clock, the answers to come and the record. -/
theorem flush_eq (l : Link) :
    ∃ (clock : Nat) (flushes : List (Answer Unit)) (done : Bool),
      (l.flush).2 =
        { l with clock, flushes, history := .flush done :: l.history } ∧
      clock + timeOf flushes = l.clock + timeOf l.flushes ∧ flushes <:+ l.flushes := by
  unfold flush
  split
  · exact ⟨_, _, _, rfl, rfl, List.suffix_refl _⟩
  · next delay flushes hflushes =>
    refine ⟨l.clock + delay, flushes, true, rfl, ?_, ?_⟩
    · simp [timeOf, hflushes, Nat.add_assoc]
    · simp [hflushes]
  · next delay f flushes hflushes =>
    refine ⟨l.clock + delay, flushes, false, rfl, ?_, ?_⟩
    · simp [timeOf, hflushes, Nat.add_assoc]
    · simp [hflushes]

/-! ## Time -/

theorem horizon_ready (l : Link) (d : Deadline) (direction : Direction) :
    (l.ready d direction).2.horizon = l.horizon := by
  obtain ⟨clock, arms, history, h, htime, -, -⟩ := l.ready_eq d direction
  rw [h]
  simp only [horizon]
  omega

theorem horizon_read (l : Link) (room : Nat) : (l.read room).2.horizon = l.horizon := by
  obtain ⟨clock, unread, reads, count?, h, htime, -⟩ := l.read_eq room
  rw [h]
  simp only [horizon]
  omega

theorem horizon_write (l : Link) (offered : Bytes) :
    (l.write offered).2.horizon = l.horizon := by
  obtain ⟨clock, writes, pieces, count?, h, htime, -⟩ := l.write_eq offered
  rw [h]
  simp only [horizon]
  omega

theorem horizon_flush (l : Link) : (l.flush).2.horizon = l.horizon := by
  obtain ⟨clock, flushes, done, h, htime, -⟩ := l.flush_eq
  rw [h]
  simp only [horizon]
  omega

end Link

/-! ## Rounds -/

/-- What arming and reading keep, a round of receiving keeps. -/
theorem Receiving.keeps_step {I : Link → Prop} (limit : Nat) (d : Deadline)
    (hready : ∀ l, I l → I (l.ready d .read).2) (hread : ∀ l room, I l → I (l.read room).2)
    (s : Receiving) {l : Link} (hl : I l) : I (step limit d s l).link := by
  have hm := hready l hl
  unfold step
  split
  · next failure m h =>
    rw [h] at hm
    exact hm
  · next m h =>
    rw [h] at hm
    have hm' := hread m s.room hm
    split
    · next m' h' =>
      rw [h'] at hm'
      rw [(atEnd_ended m' s).1]
      exact hm'
    · next b bs m' h' =>
      rw [h'] at hm'
      rw [link_take limit m' (b :: bs) s]
      exact hm'
    · next f m' h' =>
      rw [h'] at hm'
      split <;> exact hm'

/-- What arming, writing and flushing keep, a round of sending keeps. -/
theorem Sending.keeps_step {I : Link → Prop} (d : Deadline)
    (hready : ∀ l, I l → I (l.ready d .write).2) (hwrite : ∀ l bs, I l → I (l.write bs).2)
    (hflush : ∀ l, I l → I l.flush.2) (size : Nat) (left : Bytes) {l : Link} (hl : I l) :
    I (step d size left l).link := by
  cases left with
  | nil =>
    have hm := hflush l hl
    show I (flush d size l).link
    unfold flush
    split
    · next m h =>
      rw [h] at hm
      exact hm
    · next f m h =>
      rw [h] at hm
      exact hm
  | cons b bs =>
    have hm := hready l hl
    show I (offer d (b :: bs) l).link
    unfold offer
    split
    · next failure m h =>
      rw [h] at hm
      exact hm
    · next m h =>
      rw [h] at hm
      have hm' := hwrite m (b :: bs) hm
      split
      · next m' h' =>
        rw [h'] at hm'
        exact hm'
      · next count m' _ h' =>
        rw [h'] at hm'
        exact hm'
      · next f m' h' =>
        rw [h'] at hm'
        split <;> exact hm'

end FramedRelay
