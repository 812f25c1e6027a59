import FramedRelay.Forwarder
import FramedRelay.Proofs.Exchange.Steps

/-!
# The exchanges of a forwarder

Of what can happen to a forwarder, starting adds an exchange at the end, a step changes the
exchange it names alone, and telling a caller changes none (`Forwarder.exchanges_happen`). So
after any happenings each exchange is where some steps of its own have led it from its start
(`Forwarder.getElem?_exchanges_after`), and if it has ended it is where its run ends
(`Forwarder.exchange_eq_run`).
-/

namespace FramedRelay

/-- The exchange that starts. -/
def Happening.started? : Happening → Option Exchange
  | .start payload clock attempts => some (.start payload clock attempts)
  | .step _ | .expire _ => none

/-- The exchanges that some happenings start, as they start. -/
def started (hs : List Happening) : List Exchange := hs.filterMap Happening.started?

@[simp] theorem started_start (payload : Bytes) (clock : Instant) (attempts : List Attempt)
    (hs : List Happening) :
    started (.start payload clock attempts :: hs) =
      .start payload clock attempts :: started hs := rfl

@[simp] theorem started_step (i : Nat) (hs : List Happening) :
    started (.step i :: hs) = started hs := rfl

@[simp] theorem started_expire (i : Nat) (hs : List Happening) :
    started (.expire i :: hs) = started hs := rfl

/-- A job whose exchange takes a step. -/
def Job.next (c : Config) (job : Job) : Job := { job with exchange := job.exchange.next c }

/-- A job whose caller is told that it took too long, unless it has ended. -/
def Job.expire (job : Job) : Job :=
  if job.expired ∨ job.exchange.stage.result?.isSome then job else { job with expired := true }

theorem Job.exchange_expire (job : Job) : job.expire.exchange = job.exchange := by
  unfold expire
  split <;> rfl

namespace Forwarder

variable {f : Forwarder} {c : Config} {hs : List Happening} {i : Nat} {x y : Exchange}

/-- The exchanges, in the order of their start. -/
def exchanges (f : Forwarder) : List Exchange := f.jobs.map Job.exchange

theorem length_exchanges (f : Forwarder) : f.exchanges.length = f.jobs.length :=
  List.length_map _

theorem getElem?_exchanges {job : Job} (h : f.jobs[i]? = some job) :
    f.exchanges[i]? = some job.exchange := by
  rw [exchanges, List.getElem?_map, h]
  rfl

theorem exists_job (h : f.exchanges[i]? = some x) :
    ∃ job, f.jobs[i]? = some job ∧ job.exchange = x := by
  rwa [exchanges, List.getElem?_map, Option.map_eq_some_iff] at h

/-! ## One happening -/

theorem step_of_some {job : Job} (h : f.jobs[i]? = some job) :
    (f.step i).1 = { f with
      openConnections := (job.exchange.step f.config).2.2.apply f.openConnections
      jobs := f.jobs.set i (job.next f.config) } := by
  rw [step, h]
  rfl

theorem step_of_none (h : f.jobs[i]? = none) : (f.step i).1 = f := by
  rw [step, h]

/-- A step changes the job that it names. -/
theorem jobs_step (f : Forwarder) (i : Nat) :
    (f.step i).1.jobs = f.jobs.modify i (Job.next f.config) := by
  rw [List.modify_eq_set_getElem?]
  cases h : f.jobs[i]? with
  | none => rw [step_of_none h]; rfl
  | some job => rw [step_of_some h]; rfl

/-- Telling a caller changes the job that it waits for. -/
theorem jobs_expire (f : Forwarder) (i : Nat) :
    (f.expire i).1.jobs = f.jobs.modify i Job.expire := by
  rw [List.modify_eq_set_getElem?, expire]
  cases h : f.jobs[i]? with
  | none => rfl
  | some job =>
    obtain ⟨hi, rfl⟩ := List.getElem?_eq_some_iff.1 h
    simp only [Option.map_eq_map, Option.map_some, Option.getD_some, Job.expire]
    split
    · exact (List.set_getElem_self hi).symm
    · rfl

theorem openConnections_expire (f : Forwarder) (i : Nat) :
    (f.expire i).1.openConnections = f.openConnections := by
  unfold expire
  split
  · rfl
  · split <;> rfl

theorem config_happen (f : Forwarder) (h : Happening) : (f.happen h).1.config = f.config := by
  cases h with
  | start => rfl
  | step i =>
    simp only [happen, step]
    split <;> rfl
  | expire i =>
    simp only [happen, expire]
    split
    · rfl
    · split <;> rfl

theorem exchanges_start (f : Forwarder) (payload : Bytes) (clock : Instant)
    (attempts : List Attempt) :
    (f.start payload clock attempts).exchanges =
      f.exchanges ++ [.start payload clock attempts] := by
  simp [exchanges, start]

/-- A step changes the exchange that it names. -/
theorem exchanges_step (f : Forwarder) (i : Nat) :
    (f.step i).1.exchanges = f.exchanges.modify i (Exchange.next f.config) := by
  ext j : 1
  rw [exchanges, exchanges, jobs_step, List.getElem?_modify, List.getElem?_map, List.getElem?_map,
    List.getElem?_modify]
  by_cases hij : i = j
  · cases f.jobs[j]? <;> simp [hij, Job.next]
  · simp [hij]

/-- Telling a caller changes no exchange. -/
theorem exchanges_expire (f : Forwarder) (i : Nat) : (f.expire i).1.exchanges = f.exchanges := by
  ext j : 1
  rw [exchanges, exchanges, jobs_expire, List.getElem?_map, List.getElem?_map,
    List.getElem?_modify]
  by_cases hij : i = j
  · cases f.jobs[j]? <;> simp [hij, Job.exchange_expire]
  · simp [hij]

/-! ## Any happenings -/

theorem after_cons (f : Forwarder) (h : Happening) (hs : List Happening) :
    f.after (h :: hs) = (f.happen h).1.after hs := rfl

theorem after_append (f : Forwarder) (hs hs' : List Happening) :
    f.after (hs ++ hs') = (f.after hs).after hs' :=
  List.foldl_append

theorem config_after (f : Forwarder) (hs : List Happening) : (f.after hs).config = f.config := by
  induction hs generalizing f with
  | nil => rfl
  | cons h hs ih => rw [after_cons, ih, config_happen]

theorem length_exchanges_after (f : Forwarder) (hs : List Happening) :
    (f.after hs).exchanges.length = f.exchanges.length + (started hs).length := by
  induction hs generalizing f with
  | nil => rfl
  | cons h hs ih =>
    rw [after_cons, ih]
    cases h with
    | start payload clock attempts =>
      rw [happen, exchanges_start, started_start, List.length_append, List.length_cons]
      exact Nat.add_right_comm _ _ _
    | step i => rw [happen, exchanges_step, started_step, List.length_modify]
    | expire i => rw [happen, exchanges_expire, started_expire]

/-- Some steps of its own lead each exchange from where it is, or from its start if it starts
later, to where it is after any happenings. -/
theorem getElem?_exchanges_after (h : (f.exchanges ++ started hs)[i]? = some x) :
    ∃ k, (f.after hs).exchanges[i]? = some ((Exchange.next f.config)^[k] x) := by
  induction hs generalizing f x with
  | nil => exact ⟨0, (congrArg (·[i]?) (List.append_nil _)).symm.trans h⟩
  | cons happening hs ih =>
    rw [after_cons, ← config_happen f happening]
    cases happening with
    | start payload clock attempts =>
      refine ih ?_
      rw [happen, exchanges_start]
      rwa [started_start, List.append_cons] at h
    | expire j =>
      refine ih ?_
      rw [happen, exchanges_expire]
      exact h
    | step j =>
      have hmodify : ((f.happen (.step j)).1.exchanges ++ started hs)[i]? =
          some (if j = i ∧ i < f.exchanges.length then x.next f.config else x) := by
        change (f.exchanges ++ started hs)[i]? = some x at h
        rw [happen, exchanges_step]
        by_cases hi : i < f.exchanges.length
        · rw [List.getElem?_append_left hi] at h
          rw [List.getElem?_append_left (by simpa using hi), List.getElem?_modify, h]
          simp only [hi, and_true]
          rfl
        · rw [List.getElem?_append_right (by omega)] at h
          rw [List.getElem?_append_right (by simpa using hi), List.length_modify, h]
          simp [hi]
      obtain ⟨k, hk⟩ := ih hmodify
      rw [config_happen] at hk ⊢
      by_cases hj : j = i ∧ i < f.exchanges.length
      · exact ⟨k + 1, by rw [hk, if_pos hj, Function.iterate_succ_apply]⟩
      · exact ⟨k, by rw [hk, if_neg hj]⟩

theorem set_exchange_self {job : Job} (hjob : f.jobs[i]? = some job) (hx : job.exchange = x) :
    f.jobs.set i { job with exchange := x } = f.jobs := by
  obtain ⟨hi, rfl⟩ := List.getElem?_eq_some_iff.1 hjob
  rw [← hx]
  exact List.set_getElem_self hi

theorem exists_after_of_advance (more : Stage → Bool) (payload : Bytes) (s : Stage) (i : Nat) :
    ∀ (f : Forwarder) (job : Job), f.config = c → f.jobs[i]? = some job →
      job.exchange = ⟨payload, s⟩ → ∃ k, ({ f with
        openConnections :=
          (s.advance c payload more).2.2.foldl (fun n e => e.apply n) f.openConnections
        jobs := f.jobs.set i { job with
          exchange := ⟨payload, (s.advance c payload more).1⟩ } } : Forwarder) =
        f.after (List.replicate k (.step i)) := by
  fun_induction Stage.advance c payload more s with
  | case1 s result h =>
    intro f job _ hjob hx
    exact ⟨0, congrArg (Forwarder.mk f.config f.openConnections) (set_exchange_self hjob hx)⟩
  | case2 s h hmore _ move last events effects hrun ih =>
    rintro f job rfl hjob hx
    have hi := (List.getElem?_eq_some_iff.1 hjob).1
    obtain ⟨k, hk⟩ := ih (f.step i).1 (job.next f.config) (config_happen f (.step i))
      (by rw [jobs_step, List.getElem?_modify_eq, hjob]; rfl)
      (by rw [Job.next, Exchange.next, hx]; rfl)
    refine ⟨k + 1, ?_⟩
    rw [List.replicate_succ, after_cons, happen, ← hk, step_of_some hjob, hrun, hx]
    simp [Job.next, move, Exchange.step]
  | case3 s h hmore =>
    intro f job _ hjob hx
    exact ⟨0, congrArg (Forwarder.mk f.config f.openConnections) (set_exchange_self hjob hx)⟩

/-- Steps of one exchange taken together are steps taken one after another. -/
theorem exists_after_eq_advance (f : Forwarder) (more : Stage → Bool) (i : Nat) :
    ∃ k, (f.advance more i).1 = f.after (List.replicate k (.step i)) := by
  unfold advance
  split
  · exact ⟨0, rfl⟩
  · next job hjob => exact exists_after_of_advance more _ _ i f job rfl hjob rfl

/-- Every exchange of a forwarder is where some steps of its own have led it from its start. -/
theorem exists_iterate_next (h : ((new c).after hs).exchanges[i]? = some y) :
    ∃ x k, (started hs)[i]? = some x ∧ y = (Exchange.next c)^[k] x := by
  have hlt : i < (started hs).length := by
    have := (List.getElem?_eq_some_iff.1 h).1
    rw [length_exchanges_after] at this
    simpa [exchanges, new] using this
  have hstart : (started hs)[i]? = some (started hs)[i] := List.getElem?_eq_getElem hlt
  obtain ⟨k, hk⟩ := getElem?_exchanges_after (f := new c) hstart
  exact ⟨_, k, hstart, Option.some.inj (h.symm.trans hk)⟩

/-- An exchange that has ended is where its run by itself ends, whatever else has happened. -/
theorem exchange_eq_run {result : Except Stop Bytes} (hx : (started hs)[i]? = some x)
    (hy : ((new c).after hs).exchanges[i]? = some y) (hended : y.stage.result? = some result) :
    y = (x.run c).1 := by
  obtain ⟨x', k, hx', rfl⟩ := exists_iterate_next hy
  obtain rfl := Option.some.inj (hx.symm.trans hx')
  exact Exchange.iterate_next_eq_run hended

end Forwarder

end FramedRelay
