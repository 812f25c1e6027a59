import FramedRelay.Proofs.Forwarder.Isolation
import FramedRelay.Proofs.Session.Acts

/-!
# Isolation of queries

In a session, too, every query is answered as it would be by itself. The exchange of a query that
an act answers has ended (`Session.Answers`), so it is where its run by itself ends: what the
query is told is what it is told of the outcome of that run, unless it took too long, and what its
connection accepted is what it accepts in that run. `forwarding_isolated` says so for all
orders of acts, next to the isolation of exchanges for all orders of their steps.
-/

namespace FramedRelay

/-- What a query is told of the outcome of its exchange. -/
def Query.told : Query → Except Stop Bytes → Told
  | .unbounded _, outcome => .reply outcome
  | .payload _, outcome => .reply ((Config.report outcome).1.mapError .failure)
  | .request r, outcome => .response (Http.conclude r (Config.report outcome).1).1

/-- What a report says of the connection of an exchange. -/
def Stage.closed (s : Stage) (connection : Nat) : List (Nat × Bytes) :=
  (s.connection?.toList.map fun link => (connection, link.written)).filter
    fun closed => !closed.2.isEmpty

namespace Session

variable {s : Session} {w : Waiting} {payload : Bytes} {q : Query} {a : Act} {r : Report}

/-- The forwarded query that an act answers. -/
def asked? (s : Session) : Act → Option Waiting
  | .call q | .overrun q => (q.payload? s.forwarder.config).map fun _ =>
    { name := "", query := q, job := s.forwarder.jobs.length, connection := s.accepted }
  | .start .. => none
  | .finish name => s.waiting.find? fun w => w.name == name

/-! ## The exchange that an act ends -/

/-- A query is carried to the end of its exchange, and the report tells of that. -/
structure Answers (s : Session) (r : Report) (w : Waiting) (payload : Bytes) : Prop where
  carries : s.Carries w payload
  ended : ∃ x, s.forwarder.exchanges[w.job]? = some x ∧ x.stage.result?.isSome
  told : r.told? = s.tell w.query w.job
  closed : r.closed = (s.closedBy w.job w.connection).filter fun closed => !closed.2.isEmpty

/-- All steps lead to an end. -/
theorem Carries.ended (h : s.Carries w payload) :
    ∃ x, (s.advance (fun _ => true) w.job).forwarder.exchanges[w.job]? = some x ∧
      x.stage.result?.isSome := by
  obtain ⟨-, k, hk⟩ := h
  obtain ⟨job, hjob, -⟩ := Forwarder.exists_job hk
  have hi := (List.getElem?_eq_some_iff.1 hjob).1
  refine ⟨⟨job.exchange.payload, _⟩, ?_, Stage.isSome_result?_run s.forwarder.config
    job.exchange.payload job.exchange.stage⟩
  simp only [advance, Forwarder.advance, hjob]
  rw [Forwarder.exchanges, List.map_set, List.getElem?_set_self (by simpa using hi)]
  rfl

theorem Carries.ended_finish (h : s.Carries w payload) (bounded : Bool) :
    ∃ x, (s.finish bounded w.job).forwarder.exchanges[w.job]? = some x ∧
      x.stage.result?.isSome := by
  unfold finish
  split
  · exact (h.reaches ((Reaches.advance s _ w.job).trans (.expire _ _))).ended
  · exact h.ended

theorem forwarder_count (s : Session) (job : Nat) : (s.count job).forwarder = s.forwarder := by
  unfold count
  split <;> rfl

theorem answers_call (hq : s.verdict q = .forward payload) (name : String) :
    (s.call q).1.Answers (s.call q).2 ⟨name, q, s.forwarder.jobs.length, s.accepted⟩ payload := by
  have hput := carries_put hq name
  have hfinish := hput.reaches (.finish _ (isBounded q) s.forwarder.jobs.length)
  rw [call, hq]
  refine ⟨hfinish.reaches (.count _ _), ?_, rfl, rfl⟩
  show ∃ x, (count _ _).forwarder.exchanges[_]? = some x ∧ _
  rw [forwarder_count]
  exact hput.ended_finish (isBounded q)

theorem answers_overrun (hq : s.verdict q = .forward payload) (name : String) :
    (s.overrun q).1.Answers (s.overrun q).2 ⟨name, q, s.forwarder.jobs.length, s.accepted⟩
      payload := by
  have hput := (carries_put hq name).reaches (.advance _ beforeReply s.forwarder.jobs.length)
  have hheld (jobs : List Nat) := (hput.reaches (.count _ s.forwarder.jobs.length)).reaches
    (.foldl_expire _ jobs)
  rw [overrun, hq]
  exact ⟨(hheld _).reaches (.advance _ _ _), (hheld _).ended, rfl, rfl⟩

theorem answers_resume {name : String} (hs : s.Faithful)
    (hw : (s.waiting.find? fun w => w.name == name) = some w) :
    ∃ payload, (s.resume name).1.Answers (s.resume name).2 w payload := by
  obtain ⟨payload, hcarries⟩ := hs w (List.mem_of_find?_eq_some hw)
  have hfinish := hcarries.reaches (.finish _ (isBounded w.query) w.job)
  refine ⟨payload, ?_⟩
  rw [resume, hw]
  exact ⟨hfinish, hcarries.ended_finish (isBounded w.query), rfl, rfl⟩

theorem answers_act (hs : s.Faithful) (hw : s.asked? a = some w) :
    ∃ payload, (s.act a).1.Answers (s.act a).2 w payload := by
  cases a with
  | call q =>
    obtain ⟨payload, hpayload, rfl⟩ := Option.map_eq_some_iff.1 hw
    exact ⟨payload, answers_call ((verdict_eq_forward_iff s q).2 hpayload) ""⟩
  | start name q => cases hw
  | finish name => exact answers_resume hs hw
  | overrun q =>
    obtain ⟨payload, hpayload, rfl⟩ := Option.map_eq_some_iff.1 hw
    exact ⟨payload, answers_overrun ((verdict_eq_forward_iff s q).2 hpayload) ""⟩

/-! ## As by itself -/

section Ended

variable {c : Config} {x : Exchange} {job : Job} {i : Nat}

theorem tell_of_run (hjob : s.forwarder.jobs[i]? = some job) (hrun : job.exchange = (x.run c).1)
    (hexpired : isBounded q = true → job.expired = false) :
    s.tell q i = some (q.told (x.stage.outcome c x.payload)) := by
  have hanswer := Forwarder.answer?_of_run hjob hrun
  cases q with
  | unbounded bs =>
    have hresult : job.exchange.stage.result? = some (x.stage.outcome c x.payload) :=
      hrun ▸ Stage.result?_run c x.payload x.stage
    rw [tell, stage?, hjob, Option.map_some, Option.bind_some, hresult]
    rfl
  | payload bs =>
    rw [tell, hanswer, hexpired rfl]
    rfl
  | request r =>
    rw [tell, hanswer, hexpired rfl]
    rfl

theorem closedBy_of_ended (hjob : s.forwarder.jobs[i]? = some job)
    (hended : job.exchange.stage.result?.isSome) (n : Nat) :
    (s.closedBy i n).filter (fun closed => !closed.2.isEmpty) =
      job.exchange.stage.closed n := by
  rw [closedBy, stage?, hjob, Option.map_some]
  rcases h : job.exchange.stage with _ | _ | _ | _ | ⟨result, clock, _ | link⟩
  · simp [h, Stage.result?] at hended
  · simp [h, Stage.result?] at hended
  · simp [h, Stage.result?] at hended
  · simp [h, Stage.result?] at hended
  · rfl
  · rfl

end Ended

/-- What isolation is in a session after some acts, for the query that the next act answers. -/
def Isolated (c : Config) (peer : Peer) (acts : List Act) : Prop :=
  ∀ (a : Act) (w : Waiting), ((new c peer).after acts).asked? a = some w →
    ∃ payload job, w.query.payload? c = some payload ∧
      (((new c peer).after acts).act a).1.forwarder.jobs[w.job]? = some job ∧
      job.exchange = (exchange c payload (peer.attempts c payload w.connection)).1 ∧
      (((new c peer).after acts).act a).2.closed = job.exchange.stage.closed w.connection ∧
      ((isBounded w.query = true → job.expired = false) →
        (((new c peer).after acts).act a).2.told? =
          some (w.query.told (forward c payload (peer.attempts c payload w.connection))))

/-- In every order of acts a query is answered as it is by itself. -/
theorem isolated_after (c : Config) (peer : Peer) (acts : List Act) : Isolated c peer acts := by
  intro a w hw
  obtain ⟨payload, hanswers⟩ := answers_act (faithful_after c peer acts) hw
  obtain ⟨hpeer, hs, hforwarder⟩ := forwarder_after c peer (acts ++ [a])
  have hact : (new c peer).after (acts ++ [a]) = (((new c peer).after acts).act a).1 :=
    List.foldl_append
  rw [hact] at hpeer hforwarder
  have hconfig : (((new c peer).after acts).act a).1.forwarder.config = c := by
    rw [hforwarder, Forwarder.config_after]
    rfl
  obtain ⟨hpayload, k, hk⟩ := hanswers.carries
  rw [hconfig] at hpayload hk
  rw [hpeer] at hk
  obtain ⟨job, hjob, hexchange⟩ := Forwarder.exists_job hk
  obtain ⟨y, hy, hended⟩ := hanswers.ended
  obtain rfl := Option.some.inj ((Forwarder.getElem?_exchanges hjob).symm.trans hy)
  obtain ⟨result, hresult⟩ := Option.isSome_iff_exists.1 hended
  have hrun : job.exchange = (exchange c payload (peer.attempts c payload w.connection)).1 := by
    rw [hexchange] at hresult ⊢
    exact Exchange.iterate_next_eq_run hresult
  refine ⟨payload, job, hpayload, hjob, hrun, ?_, fun hexpired => ?_⟩
  · rw [hanswers.closed, closedBy_of_ended hjob hended]
  · rw [hanswers.told, tell_of_run hjob hrun hexpired]
    rfl

end Session

/-- Calls are isolated: on every forwarder, in every order of the steps of its exchanges, and in
every session, in every order of acts. -/
theorem forwarding_isolated (c : Config) :
    (∀ hs, Forwarder.Isolated c hs) ∧ ∀ peer acts, Session.Isolated c peer acts :=
  ⟨Forwarder.isolated_after c, Session.isolated_after c⟩

end FramedRelay
