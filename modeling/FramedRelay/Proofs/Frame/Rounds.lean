import FramedRelay.Proofs.Frame.Operations
import Mathlib.Logic.Relation

/-!
# Runs as sequences of rounds

Sending and receiving are runs of rounds. `Leads` says that some rounds of a step function lead
from one state and link to another; what every round keeps, they keep (`Leads.invariant`). A run
is such a sequence followed by the round that ends it (`Sending.exists_last_round`,
`Receiving.exists_last_round`), so a statement about runs needs an invariant of one round and a
look at the last; what single operations keep, whole runs keep (`Sending.keeps_run`,
`Receiving.keeps_run`).

A run is `Prompt` if no round of it finds its deadline reached or fails to set a timeout. It is
whenever timeouts can be set and the deadline comes after all the time that is scripted
(`Link.Punctual`): an operation moves time from the script to the clock, so their sum
(`Link.horizon`) stays as it is.
-/

namespace FramedRelay

variable {σ α : Type}

/-! ## Sequences of rounds -/

/-- Some rounds of `step`, none of them the last, lead from one state and link to another. -/
def Leads (step : σ → Link → Progress σ α) : σ × Link → σ × Link → Prop :=
  Relation.ReflTransGen fun a b => ∃ events, step a.1 a.2 = ⟨.again b.1, b.2, events⟩

namespace Leads

variable {step : σ → Link → Progress σ α} {s s' : σ} {l l' : Link} {a b : σ × Link}

theorem refl (a : σ × Link) : Leads step a a :=
  Relation.ReflTransGen.refl

theorem head {events : List Event} (h : step s l = ⟨.again s', l', events⟩)
    (hb : Leads step (s', l') b) : Leads step (s, l) b :=
  Relation.ReflTransGen.head ⟨events, h⟩ hb

/-- What holds at the start and is kept by every round holds wherever rounds lead. -/
theorem invariant {I : σ → Link → Prop}
    (hI : ∀ {s l s' l' events}, step s l = ⟨.again s', l', events⟩ → I s l → I s' l')
    (h : Leads step a b) (ha : I a.1 a.2) : I b.1 b.2 := by
  induction h with
  | refl => exact ha
  | tail _ hround ih =>
    obtain ⟨events, hround⟩ := hround
    exact hI hround ih

end Leads

/-- A run of sending is rounds that lead to the one that ends it. -/
theorem Sending.exists_last_round (d : Deadline) (size : Nat) (left : Bytes) (l : Link) :
    ∃ left' m events, Leads (step d size) (left, l) (left', m) ∧
      step d size left' m =
        ⟨.ended (run d size left l).1, (run d size left l).2.1, events⟩ := by
  fun_induction run d size left l with
  | case1 left l result l' events h => exact ⟨left, l, events, .refl _, h⟩
  | case2 left l left' l' events h _ result l'' later hrun ih =>
    obtain ⟨left'', m, events', hlead, hlast⟩ := ih
    rw [hrun] at hlast
    exact ⟨left'', m, events', hlead.head h, hlast⟩

/-- A run of receiving is rounds that lead to the one that ends it. -/
theorem Receiving.exists_last_round (limit : Nat) (d : Deadline) (s : Receiving) (l : Link) :
    ∃ s' m events, Leads (step limit d) (s, l) (s', m) ∧
      step limit d s' m =
        ⟨.ended (run limit d s l).1, (run limit d s l).2.1, events⟩ := by
  fun_induction run limit d s l with
  | case1 s l result l' events h => exact ⟨s, l, events, .refl _, h⟩
  | case2 s l s' l' events h _ result l'' later hrun ih =>
    obtain ⟨s'', m, events', hlead, hlast⟩ := ih
    rw [hrun] at hlast
    exact ⟨s'', m, events', hlead.head h, hlast⟩

/-! ## What runs keep -/

section Keeps

variable {I : Link → Prop} (d : Deadline)

theorem Sending.keeps_leads (hready : ∀ l, I l → I (l.ready d .write).2)
    (hwrite : ∀ l bs, I l → I (l.write bs).2) (hflush : ∀ l, I l → I l.flush.2) {size : Nat}
    {a b : Bytes × Link} (h : Leads (step d size) a b) (ha : I a.2) : I b.2 := by
  refine h.invariant (I := fun _ l => I l) ?_ ha
  intro left l left' l' events hround hl
  have := keeps_step d hready hwrite hflush size left hl
  rwa [hround] at this

/-- What arming, writing and flushing keep, sending keeps. -/
theorem Sending.keeps_run (hready : ∀ l, I l → I (l.ready d .write).2)
    (hwrite : ∀ l bs, I l → I (l.write bs).2) (hflush : ∀ l, I l → I l.flush.2) (size : Nat)
    (left : Bytes) {l : Link} (hl : I l) : I (run d size left l).2.1 := by
  obtain ⟨left', m, events, hlead, hlast⟩ := exists_last_round d size left l
  have := keeps_step d hready hwrite hflush size left'
    (keeps_leads d hready hwrite hflush hlead hl)
  rwa [hlast] at this

theorem Receiving.keeps_leads (hready : ∀ l, I l → I (l.ready d .read).2)
    (hread : ∀ l room, I l → I (l.read room).2) {limit : Nat} {a b : Receiving × Link}
    (h : Leads (step limit d) a b) (ha : I a.2) : I b.2 := by
  refine h.invariant (I := fun _ l => I l) ?_ ha
  intro s l s' l' events hround hl
  have := keeps_step limit d hready hread s hl
  rwa [hround] at this

/-- What arming and reading keep, receiving keeps. -/
theorem Receiving.keeps_run (hready : ∀ l, I l → I (l.ready d .read).2)
    (hread : ∀ l room, I l → I (l.read room).2) (limit : Nat) (s : Receiving) {l : Link}
    (hl : I l) : I (run limit d s l).2.1 := by
  obtain ⟨s', m, events, hlead, hlast⟩ := exists_last_round limit d s l
  have := keeps_step limit d hready hread s' (keeps_leads d hready hread hlead hl)
  rwa [hlast] at this

end Keeps

/-! ## Runs that are not held up -/

/-- No round of sending finds the deadline reached or fails to set the timeout. -/
def Sending.Prompt (d : Deadline) (size : Nat) (left : Bytes) (l : Link) : Prop :=
  ∀ left' m, Leads (step d size) (left, l) (left', m) → left' ≠ [] →
    (m.ready d .write).1 = .ok ()

/-- No round of receiving finds the deadline reached or fails to set the timeout. -/
def Receiving.Prompt (limit : Nat) (d : Deadline) (s : Receiving) (l : Link) : Prop :=
  ∀ s' m, Leads (step limit d) (s, l) (s', m) → (m.ready d .read).1 = .ok ()

/-- Timeouts can be set, and the deadline comes after everything scripted. -/
structure Link.Punctual (l : Link) (d : Deadline) : Prop where
  arms : ∀ a ∈ l.arms, a.result = .ok ()
  horizon : l.horizon < d.due

namespace Link.Punctual

variable {l : Link} {d : Deadline}

theorem ready_fst (h : l.Punctual d) (direction : Direction) :
    (l.ready d direction).1 = .ok () := by
  have hleft : d.left? l.clock = some (d.due - l.clock) :=
    if_pos (Nat.lt_of_le_of_lt l.clock_le_horizon h.horizon)
  have harms := h.arms
  rw [ready, hleft]
  cases hl : l.arms with
  | nil => simp [arm, hl]
  | cons a arms =>
    obtain ⟨delay, result⟩ := a
    obtain rfl : result = .ok () := harms ⟨delay, result⟩ (by simp [hl])
    simp [arm, hl]

theorem ready (h : l.Punctual d) (d' : Deadline) (direction : Direction) :
    (l.ready d' direction).2.Punctual d := by
  refine ⟨?_, (l.horizon_ready d' direction).symm ▸ h.horizon⟩
  obtain ⟨clock, arms, history, heq, -, hsuffix, -⟩ := l.ready_eq d' direction
  rw [heq]
  exact fun a ha => h.arms a (hsuffix.subset ha)

theorem read (h : l.Punctual d) (room : Nat) : (l.read room).2.Punctual d := by
  refine ⟨?_, (l.horizon_read room).symm ▸ h.horizon⟩
  obtain ⟨clock, unread, reads, count?, heq, -, -⟩ := l.read_eq room
  rw [heq]
  exact h.arms

theorem write (h : l.Punctual d) (offered : Bytes) : (l.write offered).2.Punctual d := by
  refine ⟨?_, (l.horizon_write offered).symm ▸ h.horizon⟩
  obtain ⟨clock, writes, pieces, count?, heq, -, -⟩ := l.write_eq offered
  rw [heq]
  exact h.arms

theorem flush (h : l.Punctual d) : l.flush.2.Punctual d := by
  refine ⟨?_, l.horizon_flush.symm ▸ h.horizon⟩
  obtain ⟨clock, flushes, done, heq, -, -⟩ := l.flush_eq
  rw [heq]
  exact h.arms

/-- Sending over a punctual link is not held up. -/
theorem prompt_sending (h : l.Punctual d) (size : Nat) (left : Bytes) :
    Sending.Prompt d size left l := by
  intro left' m hlead _
  have hm := Sending.keeps_leads (I := (Punctual · d)) d (fun _ h => h.ready d .write)
    (fun _ bs h => h.write bs) (fun _ h => h.flush) hlead h
  exact hm.ready_fst .write

/-- Receiving over a punctual link is not held up. -/
theorem prompt_receiving (h : l.Punctual d) (limit : Nat) (s : Receiving) :
    Receiving.Prompt limit d s l := by
  intro s' m hlead
  have hm := Receiving.keeps_leads (I := (Punctual · d)) d (fun _ h => h.ready d .read)
    (fun _ room h => h.read room) hlead h
  exact hm.ready_fst .read

theorem send {d' : Deadline} (h : l.Punctual d) (framing : Framing) (payload : Bytes) :
    (send framing payload d' l).2.1.Punctual d :=
  Sending.keeps_run (I := (Punctual · d)) d' (fun _ h => h.ready d' .write)
    (fun _ bs h => h.write bs) (fun _ h => h.flush) _ _ h

theorem receive {d' : Deadline} (h : l.Punctual d) (framing : Framing) (limit : Nat) :
    (receive framing limit d' l).2.1.Punctual d :=
  Receiving.keeps_run (I := (Punctual · d)) d' (fun _ h => h.ready d' .read)
    (fun _ room h => h.read room) limit _ h

end Link.Punctual

end FramedRelay
