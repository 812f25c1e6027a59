import FramedRelay.Proofs.Forwarder.Bound
import FramedRelay.Proofs.Session.Isolation

/-!
# Queries within the bound on a task

A session has a query forwarded step by step: it takes the steps of the exchange while the clock
is within the bound, gives the caller up if the exchange has not ended by then, and takes the
other steps. The clock of an exchange never goes back, and its last step takes no time
(`Stage.clock_le_step`, `Stage.clock_step_of_ended`), so the exchange has ended by then exactly if
its whole run ends within the bound (`Stage.isSome_result?_advance_iff`). What a query is told is
therefore what `forwardBounded` says of its exchange by itself (`Session.told_call`).
-/

namespace FramedRelay

/-! ## The clock goes on -/

theorem timeOf_le_of_suffix {α : Type} {as bs : List (Answer α)} (h : as <:+ bs) :
    timeOf as ≤ timeOf bs := by
  obtain ⟨front, rfl⟩ := h
  induction front with
  | nil => exact Nat.le_refl _
  | cons a front ih => exact Nat.le_trans ih (Nat.le_add_left _ _)

/-- What takes answers away takes the time that they say. -/
theorem clock_le_of_suffix {α : Type} {as bs : List (Answer α)} {clock clock' : Nat}
    (h : as <:+ bs) (htime : clock' + timeOf as = clock + timeOf bs) : clock ≤ clock' := by
  have := timeOf_le_of_suffix h
  omega

namespace Link

variable {t : Instant} {l : Link}

theorem le_clock_ready (h : t ≤ l.clock) (d : Deadline) (direction : Direction) :
    t ≤ (l.ready d direction).2.clock := by
  obtain ⟨clock, arms, history, heq, htime, harms, -⟩ := l.ready_eq d direction
  rw [heq]
  exact Nat.le_trans h (clock_le_of_suffix harms htime)

theorem le_clock_read (h : t ≤ l.clock) (room : Nat) : t ≤ (l.read room).2.clock := by
  obtain ⟨clock, unread, reads, count?, heq, htime, hreads⟩ := l.read_eq room
  rw [heq]
  exact Nat.le_trans h (clock_le_of_suffix hreads htime)

theorem le_clock_write (h : t ≤ l.clock) (offered : Bytes) : t ≤ (l.write offered).2.clock := by
  obtain ⟨clock, writes, pieces, count?, heq, htime, hwrites⟩ := l.write_eq offered
  rw [heq]
  exact Nat.le_trans h (clock_le_of_suffix hwrites htime)

theorem le_clock_flush (h : t ≤ l.clock) : t ≤ l.flush.2.clock := by
  obtain ⟨clock, flushes, done, heq, htime, hflushes⟩ := l.flush_eq
  rw [heq]
  exact Nat.le_trans h (clock_le_of_suffix hflushes htime)

end Link

namespace Stage

variable {c : Config} {payload : Bytes} {s : Stage}

/-- No step takes the clock back. -/
theorem clock_le_step (c : Config) (payload : Bytes) (s : Stage) :
    s.clock ≤ (s.step c payload).stage.clock := by
  cases s with
  | dialling clock left last? =>
    cases left with
    | nil => exact Nat.le_refl _
    | cons a left =>
      simp only [step]
      split
      · rw [clock_connect]
        exact Nat.le_add_right _ _
      · exact Nat.le_add_right _ _
  | sending d left link =>
    rw [clock_step_sending]
    exact Sending.keeps_step (I := fun m => link.clock ≤ m.clock) d
      (fun _ h => Link.le_clock_ready h d .write) (fun _ bs h => Link.le_clock_write h bs)
      (fun _ h => Link.le_clock_flush h) _ left (Nat.le_refl _)
  | receiving d state link =>
    rw [clock_step_receiving]
    exact Receiving.keeps_step (I := fun m => link.clock ≤ m.clock) c.maxReplyBytes d
      (fun _ h => Link.le_clock_ready h d .read) (fun _ room h => Link.le_clock_read h room) state
      (Nat.le_refl _)
  | releasing result link =>
    rw [step, release_eq]
    exact Nat.le_refl _
  | ended => exact Nat.le_refl _

theorem result?_connect (c : Config) (payload : Bytes) (l : Link) :
    (connect c payload l).stage.result? = none := by
  unfold connect
  split <;> rfl

theorem result?_await (c : Config) (l : Link) (events : List Event) :
    (await c l events).stage.result? = none := by
  unfold await
  split <;> rfl

/-- The last step takes no time. -/
theorem clock_step_of_ended {result : Except Stop Bytes}
    (h : (s.step c payload).stage.result? = some result) :
    (s.step c payload).stage.clock = s.clock := by
  cases s with
  | dialling clock left last? =>
    cases left with
    | nil => rfl
    | cons a left =>
      simp only [step] at h
      split at h
      · rw [result?_connect] at h
        cases h
      · cases h
  | sending d left link =>
    simp only [step] at h
    split at h
    · cases h
    · rw [result?_await] at h
      cases h
    · cases h
  | receiving d state link =>
    simp only [step] at h
    split at h
    · cases h
    · cases h
    · cases h
  | releasing result link =>
    rw [step, release_eq]
    rfl
  | ended => rfl

theorem clock_le_run (c : Config) (payload : Bytes) (s : Stage) :
    s.clock ≤ (s.run c payload).1.clock := by
  obtain ⟨k, hk⟩ := Exchange.exists_iterate_next_eq_run c ⟨payload, s⟩
  have hle := Exchange.iterate_next_invariant (c := c) (x := ⟨payload, s⟩)
    (I := fun s' => s.clock ≤ s'.clock)
    (fun s' h => Nat.le_trans h (clock_le_step c payload s')) (Nat.le_refl _) k
  rw [hk] at hle
  exact hle

/-- While the clock is within a bound, the steps come to the end exactly if that is within it. -/
theorem isSome_result?_advance_iff (c : Config) (payload : Bytes) (bound : Instant) (s : Stage)
    (h : s.result? = none) :
    (s.advance c payload fun s => s.clock ≤ bound).1.result?.isSome ↔
      (s.run c payload).1.clock ≤ bound := by
  fun_induction Stage.advance c payload (fun s => s.clock ≤ bound) s with
  | case1 s result hresult => simp [h] at hresult
  | case2 s hnone hmore _ move last events effects hrun ih =>
    rw [hrun] at ih
    rw [← run_step]
    cases hresult : move.stage.result? with
    | none => exact ih hresult
    | some result =>
      have hclock : move.stage.clock ≤ bound :=
        Nat.le_trans (Nat.le_of_eq (clock_step_of_ended hresult)) (of_decide_eq_true hmore)
      have hlast := advance_of_ended c payload (fun s => s.clock ≤ bound) hresult
      rw [hrun] at hlast
      obtain rfl : last = move.stage := congrArg Prod.fst hlast
      refine iff_of_true (by rw [hresult]; rfl) ?_
      rwa [run, advance_of_ended c payload _ hresult]
  | case3 s hnone hmore =>
    have hlate : bound < s.clock := Nat.not_le.1 fun hle => hmore (decide_eq_true hle)
    refine iff_of_false (by simp [hnone]) (Nat.not_le.2 ?_)
    exact Nat.lt_of_lt_of_le hlate (clock_le_run c payload s)

/-- Steps taken together leave the end of the run as it is. -/
theorem run_advance (c : Config) (payload : Bytes) (more : Stage → Bool) (s : Stage) :
    ((s.advance c payload more).1.run c payload).1 = (s.run c payload).1 := by
  fun_induction Stage.advance c payload more s with
  | case1 s result h => rfl
  | case2 s h hmore _ move last events effects hrun ih =>
    rw [hrun] at ih
    exact ih.trans (run_step c payload s)
  | case3 s h hmore => rfl

end Stage

/-! ## A job within the bound -/

/-- A job whose exchange takes steps while `more` holds. -/
def Job.advance (c : Config) (more : Stage → Bool) (job : Job) : Job :=
  { job with exchange := { job.exchange with
      stage := (job.exchange.stage.advance c job.exchange.payload more).1 } }

/-- A job whose exchange is run to its end, and whose caller is told if that is past a bound. -/
def Job.finish (c : Config) (bound : Instant) (job : Job) : Job :=
  ((job.advance c fun s => s.clock ≤ bound).expire).advance c fun _ => true

namespace Job

variable {c : Config} {job : Job} {bound : Instant}

theorem exchange_finish (c : Config) (bound : Instant) (job : Job) :
    (job.finish c bound).exchange = (job.exchange.run c).1 := by
  rw [finish, advance, exchange_expire]
  exact congrArg (Exchange.mk job.exchange.payload)
    (Stage.run_advance c job.exchange.payload _ job.exchange.stage)

/-- The caller is told exactly if the exchange ends past the bound. -/
theorem expired_finish (hnew : job.expired = false) (hnone : job.exchange.stage.result? = none) :
    (job.finish c bound).expired = true ↔ bound < (job.exchange.run c).1.stage.clock := by
  have hended := Stage.isSome_result?_advance_iff c job.exchange.payload bound _ hnone
  change (expire _).expired = true ↔ bound < (job.exchange.stage.run c job.exchange.payload).1.clock
  rw [← Nat.not_le, ← hended, expire]
  split
  · next h =>
    have hkept : ¬(job.advance c fun s => s.clock ≤ bound).expired = true :=
      fun h => Bool.false_ne_true (hnew.symm.trans h)
    exact iff_of_false hkept (not_not_intro (h.resolve_left hkept))
  · next h => exact iff_of_true rfl fun hended => h (Or.inr hended)

end Job

namespace Forwarder

variable {f : Forwarder} {c : Config} {i : Nat} {job : Job}

theorem config_advance (f : Forwarder) (more : Stage → Bool) (i : Nat) :
    (f.advance more i).1.config = f.config := by
  unfold advance
  split <;> rfl

theorem config_expire (f : Forwarder) (i : Nat) : (f.expire i).1.config = f.config :=
  config_happen f (.expire i)

theorem getElem?_jobs_advance (hjob : f.jobs[i]? = some job) (more : Stage → Bool) :
    (f.advance more i).1.jobs[i]? = some (job.advance f.config more) := by
  have hi := (List.getElem?_eq_some_iff.1 hjob).1
  simp only [advance, hjob]
  exact List.getElem?_set_self hi

theorem getElem?_jobs_expire (hjob : f.jobs[i]? = some job) :
    (f.expire i).1.jobs[i]? = some job.expire := by
  rw [jobs_expire, List.getElem?_modify_eq, hjob]
  rfl

end Forwarder

/-! ## What a query is told -/

/-- What a query is told of the answer to its caller. -/
def Query.answered (q : Query) (answer : Except Failure Bytes) : Told :=
  match q with
  | .request r => .response (Http.conclude r answer).1
  | .payload _ | .unbounded _ => .reply (answer.mapError .failure)

namespace Session

variable {s : Session} {c : Config} {i : Nat} {job : Job} {bound : Span} {q : Query}
  {payload : Bytes}

theorem getElem?_jobs_finish (hjob : s.forwarder.jobs[i]? = some job)
    (hbound : s.forwarder.config.taskTimeout? = some bound) :
    (s.finish true i).forwarder.jobs[i]? = some (job.finish s.forwarder.config bound) := by
  have hwithin := Forwarder.getElem?_jobs_advance hjob fun stage => stage.clock ≤ bound
  have hended := Forwarder.getElem?_jobs_advance (Forwarder.getElem?_jobs_expire hwithin)
    fun _ => true
  rw [Forwarder.config_expire, Forwarder.config_advance] at hended
  simp only [finish, hbound]
  exact hended

theorem tell_of_isBounded (hq : isBounded q = true) (s : Session) (i : Nat) :
    s.tell q i = (s.forwarder.answer? i).map q.answered := by
  cases q with
  | unbounded bs => cases hq
  | payload bs | request r => rfl

/-- What a query within the bound is told is the answer to its exchange by itself. -/
theorem told_call {o : Options} (h : o.Configured s.forwarder.config)
    (hbounded : isBounded q = true) (hq : s.verdict q = .forward payload) :
    (s.call q).2.told? = some (q.answered (forwardBounded s.forwarder.config payload
      (s.peer.attempts s.forwarder.config payload s.accepted)).1) := by
  have htold : (s.call q).2.told? = (((s.put payload).1.finish true
      s.forwarder.jobs.length).forwarder.answer? s.forwarder.jobs.length).map q.answered := by
    rw [call, hq]
    change (count _ _).tell q _ = _
    rw [tell_of_isBounded hbounded, forwarder_count, hbounded]
    rfl
  have hjob : (s.put payload).1.forwarder.jobs[s.forwarder.jobs.length]? = some
      ⟨.start payload 0 (s.peer.attempts s.forwarder.config payload s.accepted), false⟩ :=
    List.getElem?_concat_length
  have hfinish := getElem?_jobs_finish hjob h.taskTimeout?
  have hconfig : ((s.put payload).1.finish true s.forwarder.jobs.length).forwarder.config =
      s.forwarder.config := (Reaches.finish (s.put payload).1 true s.forwarder.jobs.length).config
  have hexpired := @Job.expired_finish s.forwarder.config
    ⟨.start payload 0 (s.peer.attempts s.forwarder.config payload s.accepted), false⟩
    s.forwarder.config.bound rfl rfl
  rw [htold, Forwarder.answer?_of_run hfinish (Job.exchange_finish _ _ _), hconfig,
    forwardBounded_eq h, Option.map_some]
  exact congrArg (fun answer => some (q.answered answer)) (if_congr hexpired rfl rfl)

end Session

end FramedRelay
