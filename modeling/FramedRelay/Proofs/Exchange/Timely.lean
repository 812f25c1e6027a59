import FramedRelay.Proofs.Exchange.Steps
import FramedRelay.Proofs.Frame.Deadlines

/-!
# How long an exchange takes

An exchange is `Timely` if dialling an address never takes longer than the configuration allows,
each read and write returns within the timeout in force, and nothing else takes time. Sending and
receiving then keep to their deadlines, so the whole is over once all addresses were dialled and
the two bounds have passed (`Timely.clock_exchange_le`): each address has the whole time to
connect. Links whose scripts are short enough make an exchange timely (`timely_of_scripts`).
-/

namespace FramedRelay

/-- The read or write that is next, if one is, is in time. -/
def Stage.InTime : Stage → Prop
  | sending d left link => ∀ transfer, Sending.transfer? left = some transfer →
      FramedRelay.InTime d .write transfer link
  | receiving d state link => ∀ transfer, Receiving.transfer? state = some transfer →
      FramedRelay.InTime d .read transfer link
  | dialling .. | releasing .. | ended .. => True

/-- Dialling, reading and writing keep to the time they have, and nothing else takes time. -/
structure Timely (c : Config) (payload : Bytes) (attempts : List Attempt) : Prop where
  delays : ∀ a ∈ attempts, a.delay ≤ c.connectTimeout
  brisk : ∀ a ∈ attempts, ∀ link, a.outcome = .ok link → link.Brisk
  inTime : ∀ k, ((Exchange.next c)^[k] (.start payload 0 attempts)).stage.InTime

/-- The time that dialling all addresses takes. -/
def dialTime : List Attempt → Nat
  | [] => 0
  | a :: left => a.delay + dialTime left

namespace Stage

variable {c : Config} {payload : Bytes} {s : Stage} {t : Nat}

/-- The stage is within its share of the time, if dialling is over by `t`. -/
def Within (c : Config) (t : Nat) : Stage → Prop
  | dialling clock left _ => clock + dialTime left ≤ t ∧
      ∀ a ∈ left, ∀ link, a.outcome = .ok link → link.Brisk
  | sending d _ link => link.Brisk ∧ link.clock ≤ d.due ∧ d.due ≤ t + c.sendTimeout
  | receiving d _ link => link.Brisk ∧ link.clock ≤ d.due ∧
      d.due ≤ t + c.sendTimeout + c.receiveTimeout
  | releasing _ link => link.clock ≤ t + c.sendTimeout + c.receiveTimeout
  | ended _ clock _ => clock ≤ t + c.sendTimeout + c.receiveTimeout

namespace Within

theorem connect {l : Link} (hl : l.Brisk) (hclock : l.clock ≤ t) (payload : Bytes) :
    (Stage.connect c payload l).stage.Within c t := by
  unfold Stage.connect
  split
  · exact Nat.le_trans hclock (Nat.le_trans (Nat.le_add_right _ _) (Nat.le_add_right _ _))
  · next d hd =>
    obtain rfl := Deadline.eq_of_start? hd
    exact ⟨hl, Nat.le_add_right _ _, Nat.add_le_add_right hclock _⟩

theorem await {l : Link} (hl : l.Brisk) (hclock : l.clock ≤ t + c.sendTimeout)
    (events : List Event) : (Stage.await c l events).stage.Within c t := by
  unfold Stage.await
  split
  · exact Nat.le_trans hclock (Nat.le_add_right _ _)
  · next d hd =>
    obtain rfl := Deadline.eq_of_start? hd
    exact ⟨hl, Nat.le_add_right _ _, Nat.add_le_add_right hclock _⟩

/-- A step that is in time keeps the stage within its share. -/
theorem step (h : s.Within c t) (htime : s.InTime) (payload : Bytes) :
    (s.step c payload).stage.Within c t := by
  cases s with
  | dialling clock left last? =>
    obtain ⟨hclock, hbrisk⟩ := h
    cases left with
    | nil =>
      exact Nat.le_trans hclock (Nat.le_trans (Nat.le_add_right _ _) (Nat.le_add_right _ _))
    | cons a left =>
      have hdial : clock + a.delay + dialTime left ≤ t := by
        rw [Nat.add_assoc]
        exact hclock
      simp only [Stage.step]
      split
      · next link ha =>
        have hlink := hbrisk a List.mem_cons_self link ha
        have haccepted : clock + a.delay ≤ t := Nat.le_of_add_right_le hdial
        exact connect (l := { link with clock := clock + a.delay })
          ⟨hlink.arms, hlink.flushes⟩ haccepted payload
      · exact ⟨hdial, fun b hb => hbrisk b (List.mem_cons_of_mem a hb)⟩
  | sending d left link =>
    obtain ⟨hbrisk, hclock, hdue⟩ := h
    have hbrisk' := (Sending.timed d (c.framing.encode payload).length).brisk left link hbrisk
    have hclock' := (Sending.timed d (c.framing.encode payload).length).clock_step_le hbrisk htime
    rw [Nat.max_eq_left hclock] at hclock'
    simp only [Stage.step]
    split
    · next hround =>
      rw [hround] at hbrisk' hclock'
      exact ⟨hbrisk', hclock', hdue⟩
    · next hround =>
      rw [hround] at hbrisk' hclock'
      exact await hbrisk' (Nat.le_trans hclock' hdue) _
    · next hround =>
      rw [hround] at hclock'
      exact Nat.le_trans hclock' (Nat.le_trans hdue (Nat.le_add_right _ _))
  | receiving d state link =>
    obtain ⟨hbrisk, hclock, hdue⟩ := h
    have hbrisk' := (Receiving.timed c.maxReplyBytes d).brisk state link hbrisk
    have hclock' := (Receiving.timed c.maxReplyBytes d).clock_step_le hbrisk htime
    rw [Nat.max_eq_left hclock] at hclock'
    simp only [Stage.step]
    split
    · next hround =>
      rw [hround] at hbrisk' hclock'
      exact ⟨hbrisk', hclock', hdue⟩
    · next hround =>
      rw [hround] at hclock'
      exact Nat.le_trans hclock' hdue
    · next hround =>
      rw [hround] at hclock'
      exact Nat.le_trans hclock' hdue
  | releasing result link =>
    rw [Stage.step, release_eq]
    exact h
  | ended result clock link? => exact h

end Within

end Stage

namespace Timely

variable {c : Config} {payload : Bytes} {attempts : List Attempt}

/-- Every stage of a timely exchange is within its share of the time. -/
theorem within (h : Timely c payload attempts) (k : Nat) :
    ((Exchange.next c)^[k] (.start payload 0 attempts)).stage.Within c (dialTime attempts) := by
  induction k with
  | zero => exact ⟨Nat.le_of_eq (Nat.zero_add _), h.brisk⟩
  | succ k ih =>
    rw [Function.iterate_succ_apply']
    exact ih.step (h.inTime k) _

/-- A timely exchange is over once all addresses were dialled and the bounds on sending and
receiving have passed. -/
theorem clock_exchange_le (h : Timely c payload attempts) :
    (exchange c payload attempts).1.stage.clock ≤
      dialTime attempts + c.sendTimeout + c.receiveTimeout := by
  obtain ⟨k, hk⟩ := Exchange.exists_iterate_next_eq_run c (.start payload 0 attempts)
  have hend := h.within k
  rw [hk] at hend
  obtain ⟨clock, link?, hended⟩ := Exchange.exists_eq_ended c payload attempts
  rw [hended]
  change (exchange c payload attempts).1.stage.Within c (dialTime attempts) at hend
  rw [hended] at hend
  exact hend

end Timely

/-! ## Links that are quick enough -/

/-- The writes scripted take no longer than sending may, nor the reads than receiving may, and
setting timeouts and flushing take no time. -/
structure Link.Quick (c : Config) (l : Link) : Prop where
  brisk : l.Brisk
  writes : l.scripted .write ≤ c.sendTimeout
  reads : l.scripted .read ≤ c.receiveTimeout

namespace Stage

variable {c : Config} {payload : Bytes} {s : Stage}

/-- What is scripted leaves the stage in time. -/
def Scripted (c : Config) : Stage → Prop
  | dialling _ left _ => ∀ a ∈ left, ∀ link, a.outcome = .ok link → link.Quick c
  | sending d _ link => link.DoneBy .write d.due ∧ link.scripted .read ≤ c.receiveTimeout
  | receiving d _ link => link.DoneBy .read d.due
  | releasing .. | ended .. => True

theorem Scripted.inTime (h : s.Scripted c) : s.InTime := by
  cases s with
  | sending d left link =>
    intro transfer htransfer
    cases left with
    | nil => cases htransfer
    | cons b bs =>
      obtain rfl := Option.some.inj htransfer
      exact h.1.inTime fun _ hm => hm.write (b :: bs)
  | receiving d state link =>
    intro transfer htransfer
    obtain rfl := Option.some.inj htransfer
    exact Link.DoneBy.inTime h fun _ hm => hm.read state.room
  | dialling | releasing | ended => trivial

theorem Scripted.connect {l : Link} (h : l.Quick c) (clock : Instant) (payload : Bytes) :
    (Stage.connect c payload { l with clock }).stage.Scripted c := by
  unfold Stage.connect
  split
  · trivial
  · next d hd =>
    obtain rfl := Deadline.eq_of_start? hd
    exact ⟨⟨⟨h.brisk.arms, h.brisk.flushes⟩, Nat.add_le_add_left h.writes clock⟩, h.reads⟩

theorem Scripted.await {l : Link} (hl : l.Brisk) (hreads : l.scripted .read ≤ c.receiveTimeout)
    (events : List Event) : (Stage.await c l events).stage.Scripted c := by
  unfold Stage.await
  split
  · trivial
  · next d hd =>
    obtain rfl := Deadline.eq_of_start? hd
    exact ⟨hl, Nat.add_le_add_left hreads l.clock⟩

/-- A round of sending leaves the reads scripted. -/
theorem scripted_read_step (d : Deadline) (size : Nat) (left : Bytes) (l : Link) :
    (Sending.step d size left l).link.scripted .read = l.scripted .read := by
  refine Sending.keeps_step (I := fun m => m.scripted .read = l.scripted .read) d ?_ ?_ ?_ size
    left rfl
  · intro m hm
    obtain ⟨clock, arms, history, heq, -⟩ := m.ready_eq d .write
    rw [heq]
    exact hm
  · intro m bs hm
    obtain ⟨clock, writes, pieces, count?, heq, -⟩ := m.write_eq bs
    rw [heq]
    exact hm
  · intro m hm
    obtain ⟨clock, flushes, done, heq, -⟩ := m.flush_eq
    rw [heq]
    exact hm

/-- Every step keeps what is scripted in time. -/
theorem Scripted.step (h : s.Scripted c) (payload : Bytes) :
    (s.step c payload).stage.Scripted c := by
  cases s with
  | dialling clock left last? =>
    cases left with
    | nil => trivial
    | cons a left =>
      simp only [Stage.step]
      split
      · next link ha => exact connect (h a List.mem_cons_self link ha) _ payload
      · exact fun b hb => h b (List.mem_cons_of_mem a hb)
  | sending d left link =>
    obtain ⟨hwrites, hreads⟩ := h
    have hwrites' := Sending.keeps_step (I := Link.DoneBy .write d.due) d
      (fun _ h => h.ready d .write) (fun _ bs h => h.write bs) (fun _ h => h.flush)
      (c.framing.encode payload).length left hwrites
    have hreads' := Nat.le_trans
      (Nat.le_of_eq (scripted_read_step d (c.framing.encode payload).length left link)) hreads
    simp only [Stage.step]
    split
    · next hround =>
      rw [hround] at hwrites' hreads'
      exact ⟨hwrites', hreads'⟩
    · next hround =>
      rw [hround] at hwrites' hreads'
      exact await hwrites'.brisk hreads' _
    · trivial
  | receiving d state link =>
    have h' := Receiving.keeps_step (I := Link.DoneBy .read d.due) c.maxReplyBytes d
      (fun _ h => h.ready d .read) (fun _ room h => h.read room) state h
    simp only [Stage.step]
    split
    · next hround =>
      rw [hround] at h'
      exact h'
    · trivial
    · trivial
  | releasing result link =>
    rw [Stage.step, release_eq]
    trivial
  | ended => trivial

end Stage

/-- Where dialling is timely and all links are quick, so is the exchange. -/
theorem timely_of_scripts {c : Config} {attempts : List Attempt}
    (hdelays : ∀ a ∈ attempts, a.delay ≤ c.connectTimeout)
    (hlinks : ∀ a ∈ attempts, ∀ link, a.outcome = .ok link → link.Quick c) (payload : Bytes) :
    Timely c payload attempts where
  delays := hdelays
  brisk a ha link hlink := (hlinks a ha link hlink).brisk
  inTime k := (Exchange.iterate_next_invariant (x := .start payload 0 attempts)
    (I := Stage.Scripted c) (fun _ h => h.step payload) hlinks k).inTime

end FramedRelay
