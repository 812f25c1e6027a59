import FramedRelay.Exchange
import FramedRelay.Proofs.Frame.Operations
import Mathlib.Logic.Function.Iterate

/-!
# The steps of an exchange

What a step of an exchange does to its connection is one of six things (`Stage.Passage`): an
address does not accept, no address is left, an address accepts, the connection that is held is
worked on, it is released, or all is over already. While a connection is worked on, only timeouts
are set, bytes read or written, and what was written flushed, so what these keep is kept
(`Link.Kept`).

Steps lead towards one end: wherever some steps have led an exchange, its run ends as the run of
the whole exchange does (`Exchange.run_iterate_next`), and at the end there is nothing left of the
run (`Exchange.run_of_ended`).
-/

namespace FramedRelay

/-- Setting a timeout, reading, writing and flushing keep a property of links. -/
structure Link.Kept (I : Link → Prop) : Prop where
  ready : ∀ l d direction, I l → I (l.ready d direction).2
  read : ∀ l room, I l → I (l.read room).2
  write : ∀ l offered, I l → I (l.write offered).2
  flush : ∀ l, I l → I l.flush.2

theorem Deadline.eq_of_start? {now : Instant} {limit : Span} {stage : String} {d : Deadline}
    (h : start? now limit stage = some d) : d = ⟨now + limit, stage⟩ := by
  unfold start? Instant.after? at h
  split at h
  · exact (Option.some.inj h).symm
  · cases h

theorem Link.shutdown_eq (l : Link) :
    ∃ done, l.shutdown.2 = { l with history := .shutdown done :: l.history } := by
  unfold shutdown
  split
  · exact ⟨true, rfl⟩
  · exact ⟨false, rfl⟩

theorem Link.clock_shutdown (l : Link) : l.shutdown.2.clock = l.clock := by
  obtain ⟨done, heq⟩ := l.shutdown_eq
  rw [heq]

/-- Releasing takes no time. -/
theorem Stage.release_eq (result : Except Stop Bytes) (l : Link) :
    (release result l).stage = .ended result l.clock (some l.shutdown.2) := by
  have hclock := l.clock_shutdown
  unfold release
  split
  · next m h =>
    rw [h] at hclock ⊢
    rw [← hclock]
  · next f m h =>
    rw [h] at hclock ⊢
    rw [← hclock]

namespace Stage

variable {s s' : Stage} {e : Effect}

/-! ## What a step does to the connection -/

/-- The connection that is held, or was held until its release. -/
def connection? : Stage → Option Link
  | dialling .. => none
  | sending _ _ link | receiving _ _ link | releasing _ link => some link
  | ended _ _ link? => link?

theorem connection?_of_link? {link : Link} (h : s.link? = some link) :
    s.connection? = some link := by
  cases s with
  | dialling => cases h
  | ended => cases h
  | sending | receiving | releasing => exact h

theorem isOpen_of_link? {link : Link} (h : s.link? = some link) : s.isOpen = true := by
  rw [isOpen, h]
  rfl

/-- A step from one stage to another has an effect on the connections that are open. -/
inductive Passage : Stage → Effect → Stage → Prop
  /-- The address that is dialled does not accept. -/
  | refused (clock clock' : Instant) (a : Attempt) (left : List Attempt) (last? : Option Fault)
      (f : Fault) (h : a.outcome = .error f) :
      Passage (dialling clock (a :: left) last?) .none (dialling clock' left (some f))
  /-- No address is left to dial. -/
  | exhausted (clock : Instant) (last? : Option Fault) (result : Except Stop Bytes) :
      Passage (dialling clock [] last?) .none (ended result clock none)
  /-- The address that is dialled accepts, and the connection is held. -/
  | accepted (clock : Instant) (a : Attempt) (left : List Attempt) (last? : Option Fault)
      (link : Link) (s : Stage) (h : a.outcome = .ok link)
      (hs : s.link? = some { link with clock := clock + a.delay }) :
      Passage (dialling clock (a :: left) last?) .opened s
  /-- The connection is worked on, and still held. -/
  | worked (s s' : Stage) (link link' : Link) (hs : s.link? = some link)
      (hs' : s'.link? = some link') (h : ∀ I : Link → Prop, Link.Kept I → I link → I link') :
      Passage s .none s'
  /-- The connection is closed and released. -/
  | closed (result : Except Stop Bytes) (link : Link) (clock : Instant) :
      Passage (releasing result link) .released (ended result clock (some link.shutdown.2))
  /-- There is nothing left to do. -/
  | finished (result : Except Stop Bytes) (clock : Instant) (link? : Option Link) :
      Passage (ended result clock link?) .none (ended result clock link?)

theorem passage_connect (c : Config) (payload : Bytes) {clock : Instant} {a : Attempt}
    {left : List Attempt} {last? : Option Fault} {link : Link} (h : a.outcome = .ok link) :
    Passage (dialling clock (a :: left) last?)
      (connect c payload { link with clock := clock + a.delay }).effect
      (connect c payload { link with clock := clock + a.delay }).stage := by
  unfold connect
  split
  · exact .accepted _ _ _ _ link _ h rfl
  · exact .accepted _ _ _ _ link _ h rfl

theorem passage_await (c : Config) {link link' : Link} (hs : s.link? = some link)
    (h : ∀ I : Link → Prop, Link.Kept I → I link → I link') (events : List Event) :
    Passage s (await c link' events).effect (await c link' events).stage := by
  unfold await
  split
  · exact .worked _ _ link link' hs rfl h
  · exact .worked _ _ link link' hs rfl h

/-- Every step does one of these things to the connection. -/
theorem passage_step (c : Config) (payload : Bytes) (s : Stage) :
    Passage s (s.step c payload).effect (s.step c payload).stage := by
  cases s with
  | dialling clock left last? =>
    cases left with
    | nil => exact .exhausted _ _ _
    | cons a left =>
      simp only [step]
      split
      · next link h => exact passage_connect c payload h
      · next f h => exact .refused _ _ _ _ _ f h
  | sending d left link =>
    have hkept : ∀ I : Link → Prop, Link.Kept I → I link →
        I (Sending.step d (c.framing.encode payload).length left link).link := fun I hI hl =>
      Sending.keeps_step d (hI.ready · d .write) hI.write hI.flush _ left hl
    simp only [step]
    split
    · next h =>
      rw [h] at hkept
      exact .worked _ _ link _ rfl rfl hkept
    · next h =>
      rw [h] at hkept
      exact passage_await c rfl hkept _
    · next h =>
      rw [h] at hkept
      exact .worked _ _ link _ rfl rfl hkept
  | receiving d state link =>
    have hkept : ∀ I : Link → Prop, Link.Kept I → I link →
        I (Receiving.step c.maxReplyBytes d state link).link := fun I hI hl =>
      Receiving.keeps_step c.maxReplyBytes d (hI.ready · d .read) hI.read state hl
    simp only [step]
    split
    · next h =>
      rw [h] at hkept
      exact .worked _ _ link _ rfl rfl hkept
    · next h =>
      rw [h] at hkept
      exact .worked _ _ link _ rfl rfl hkept
    · next h =>
      rw [h] at hkept
      exact .worked _ _ link _ rfl rfl hkept
  | releasing result link =>
    simp only [step, release]
    split
    · next link' h =>
      obtain rfl : link.shutdown.2 = link' := by rw [h]
      exact .closed _ _ _
    · next f link' h =>
      obtain rfl : link.shutdown.2 = link' := by rw [h]
      exact .closed _ _ _
  | ended result clock link? => exact .finished _ _ _

/-! ## What the clock shows after a step -/

theorem clock_connect (c : Config) (payload : Bytes) (l : Link) :
    (connect c payload l).stage.clock = l.clock := by
  unfold connect
  split <;> rfl

theorem clock_await (c : Config) (l : Link) (events : List Event) :
    (await c l events).stage.clock = l.clock := by
  unfold await
  split <;> rfl

/-- After a round of sending it is as late as the round has made it. -/
theorem clock_step_sending (c : Config) (payload : Bytes) (d : Deadline) (left : Bytes)
    (l : Link) : ((sending d left l).step c payload).stage.clock =
      (Sending.step d (c.framing.encode payload).length left l).link.clock := by
  simp only [step]
  split
  · next hround => rw [hround]; rfl
  · next hround => rw [hround, clock_await]
  · next hround => rw [hround]; rfl

/-- After a round of receiving the connection is what the round has made it. -/
theorem connection?_step_receiving (c : Config) (payload : Bytes) (d : Deadline)
    (state : Receiving) (l : Link) : ((receiving d state l).step c payload).stage.connection? =
      some (state.step c.maxReplyBytes d l).link := by
  simp only [step]
  split
  · next hround => rw [hround]; rfl
  · next hround => rw [hround]; rfl
  · next hround => rw [hround]; rfl

theorem clock_step_receiving (c : Config) (payload : Bytes) (d : Deadline) (state : Receiving)
    (l : Link) : ((receiving d state l).step c payload).stage.clock =
      (state.step c.maxReplyBytes d l).link.clock := by
  simp only [step]
  split
  · next hround => rw [hround]; rfl
  · next hround => rw [hround]; rfl
  · next hround => rw [hround]; rfl

/-! ## The end of a run -/

theorem advance_of_none (c : Config) (payload : Bytes) {more : Stage → Bool}
    (h : s.result? = none) (hmore : more s = true) : s.advance c payload more =
      (((s.step c payload).stage.advance c payload more).1,
        (s.step c payload).events ++ ((s.step c payload).stage.advance c payload more).2.1,
        (s.step c payload).effect :: ((s.step c payload).stage.advance c payload more).2.2) := by
  rw [advance]
  split
  · next h' => simp [h] at h'
  · rw [if_pos hmore]

theorem step_of_ended (c : Config) (payload : Bytes) {result : Except Stop Bytes}
    (h : s.result? = some result) : (s.step c payload).stage = s := by
  cases s with
  | ended => rfl
  | dialling | sending | receiving | releasing => cases h

theorem advance_of_ended (c : Config) (payload : Bytes) (more : Stage → Bool)
    {result : Except Stop Bytes} (h : s.result? = some result) :
    s.advance c payload more = (s, [], []) := by
  rw [advance]
  split
  · rfl
  · next h' => simp [h] at h'

/-- A step leaves the end of the run as it is. -/
theorem run_step (c : Config) (payload : Bytes) (s : Stage) :
    ((s.step c payload).stage.run c payload).1 = (s.run c payload).1 := by
  cases h : s.result? with
  | some result => rw [step_of_ended c payload h]
  | none => exact (congrArg Prod.fst (advance_of_none c payload h rfl)).symm

theorem result?_run (c : Config) (payload : Bytes) (s : Stage) :
    (s.run c payload).1.result? = some (s.outcome c payload) :=
  (Option.some_get (isSome_result?_run c payload s)).symm

end Stage

namespace Exchange

/-- The exchange after a step. -/
def next (c : Config) (x : Exchange) : Exchange := (x.step c).1

theorem run_next (c : Config) (x : Exchange) : ((x.next c).run c).1 = (x.run c).1 :=
  congrArg (Exchange.mk x.payload) (Stage.run_step c x.payload x.stage)

/-- Wherever some steps have led, the run ends as it would have from the start. -/
theorem run_iterate_next (c : Config) (x : Exchange) (k : Nat) :
    ((next c)^[k] x |>.run c).1 = (x.run c).1 := by
  induction k generalizing x with
  | zero => rfl
  | succ k ih => rw [Function.iterate_succ_apply, ih, run_next]

theorem run_of_ended (c : Config) {x : Exchange} {result : Except Stop Bytes}
    (h : x.stage.result? = some result) : (x.run c).1 = x :=
  congrArg (fun r : Stage × List Event × List Effect => Exchange.mk x.payload r.1)
    (Stage.advance_of_ended c x.payload (fun _ => true) h)

/-- What every step keeps holds wherever steps lead. -/
theorem iterate_next_invariant {c : Config} {x : Exchange} {I : Stage → Prop}
    (hI : ∀ s, I s → I (s.step c x.payload).stage) (hx : I x.stage) (k : Nat) :
    I ((next c)^[k] x).stage := by
  suffices h : ((next c)^[k] x).payload = x.payload ∧ I ((next c)^[k] x).stage from h.2
  induction k with
  | zero => exact ⟨rfl, hx⟩
  | succ k ih =>
    rw [Function.iterate_succ_apply']
    refine ⟨ih.1, ?_⟩
    rw [next, step, ih.1]
    exact hI _ ih.2

/-- Some steps lead to the end of the run. -/
theorem exists_iterate_next_eq_run (c : Config) (x : Exchange) :
    ∃ k, (next c)^[k] x = (x.run c).1 := by
  obtain ⟨payload, s⟩ := x
  suffices h : ∃ k, (next c)^[k] ⟨payload, s⟩ = ⟨payload, (s.advance c payload fun _ => true).1⟩
    from h
  fun_induction Stage.advance c payload (fun _ => true) s with
  | case1 s result h => exact ⟨0, rfl⟩
  | case2 s h _ _ move last events effects hrun ih =>
    obtain ⟨k, hk⟩ := ih
    rw [hrun] at hk
    exact ⟨k + 1, hk⟩
  | case3 s h hmore => simp at hmore

/-- What every step keeps holds at the end of the run. -/
theorem run_invariant {c : Config} {x : Exchange} {I : Stage → Prop}
    (hI : ∀ s, I s → I (s.step c x.payload).stage) (hx : I x.stage) : I (x.run c).1.stage := by
  obtain ⟨k, hk⟩ := exists_iterate_next_eq_run c x
  exact hk ▸ iterate_next_invariant hI hx k

/-- Steps that lead to an end lead to the end of the run. -/
theorem iterate_next_eq_run {c : Config} {x : Exchange} {k : Nat} {result : Except Stop Bytes}
    (h : ((next c)^[k] x).stage.result? = some result) : (next c)^[k] x = (x.run c).1 := by
  rw [← run_of_ended c h, run_iterate_next]

/-- The outcome is that of the end that steps lead to. -/
theorem outcome_of_iterate_next {c : Config} {x : Exchange} {k : Nat}
    {result : Except Stop Bytes} (h : ((next c)^[k] x).stage.result? = some result) :
    x.stage.outcome c x.payload = result := by
  rw [iterate_next_eq_run h] at h
  exact Option.some.inj ((Stage.result?_run c x.payload x.stage).symm.trans h)

/-- The outcome is that of the end of the run. -/
theorem forward_of_ended {c : Config} {payload : Bytes} {attempts : List Attempt}
    {result : Except Stop Bytes}
    (h : (exchange c payload attempts).1.stage.result? = some result) :
    forward c payload attempts = result :=
  Option.some.inj ((Stage.result?_run c payload _).symm.trans h)

theorem forward_of_iterate_next {c : Config} {payload : Bytes} {attempts : List Attempt} {k : Nat}
    {result : Except Stop Bytes}
    (h : ((next c)^[k] (start payload 0 attempts)).stage.result? = some result) :
    forward c payload attempts = result :=
  outcome_of_iterate_next h

/-- At the end of the run stands the outcome. -/
theorem exists_eq_ended (c : Config) (payload : Bytes) (attempts : List Attempt) :
    ∃ clock link?, (exchange c payload attempts).1.stage =
      .ended (forward c payload attempts) clock link? := by
  have hresult : (exchange c payload attempts).1.stage.result? =
      some (forward c payload attempts) := Stage.result?_run c payload _
  cases hend : (exchange c payload attempts).1.stage with
  | ended result clock link? =>
    rw [hend] at hresult
    exact ⟨clock, link?, by rw [Option.some.inj hresult]⟩
  | dialling | sending | receiving | releasing =>
    rw [hend] at hresult
    cases hresult

end Exchange

end FramedRelay
