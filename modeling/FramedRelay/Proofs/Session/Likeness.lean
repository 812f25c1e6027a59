import FramedRelay.Proofs.Session.Gate
import Mathlib.Data.List.Forall2

/-!
# Only the body counts

Two POSTs are alike if they announce the same length and their bodies are the same bytes, however
these are cut (`Http.Request.Alike`); their paths, their other headers and all that they announce
later may differ. Such requests have the same payload or are refused with the same failure, so they
are answered alike by themselves. In a session they also leave the same behind: of two sessions
that differ only in the requests that wait, and in these only up to likeness, acts that are alike
make two such sessions again and report the same (`Session.Alike.act`). `only_bodies_count` says so
for whole lists of acts.
-/

namespace FramedRelay

/-! ## Requests -/

namespace Http

/-- Two POSTs with the same length announced and the same body. -/
structure Request.Alike (r r' : Request) : Prop where
  methods : r.method = "POST" ∧ r'.method = "POST"
  paths : r.path.toList.head? = some '/' ∧ r'.path.toList.head? = some '/'
  announced : ∃ n, r.announced? = some n ∧ r'.announced? = some n
  bodies : ∃ body, r.Holds body ∧ r'.Holds body

variable {r r' : Request}

theorem Request.wholeBody_of_tooLarge {limit n : Nat} (hn : r.announced? = some n)
    (hlimit : limit < n) : (r.wholeBody limit).1 = .error (.requestTooLarge n limit) := by
  obtain ⟨value, hvalue, hlength⟩ := Option.bind_eq_some_iff.1 hn
  simp only [wholeBody, contentLength, hvalue, hlength, if_pos hlimit]

/-- The answer to a request by itself, in terms of what becomes of it. -/
theorem handle_fst (c : Config) (n : Nat) (attempts : List Attempt) (r : Request) :
    (handle c n attempts r).1 = match (begin c n r).1 with
      | .respond response => response
      | .forward payload => (conclude r (forwardBounded c payload attempts).1).1 := by
  unfold handle
  rcases begin c n r with ⟨response | payload, events⟩ <;> rfl

namespace Request.Alike

theorem wholeBody_eq (h : r.Alike r') (limit : Nat) :
    (r.wholeBody limit).1 = (r'.wholeBody limit).1 := by
  obtain ⟨n, hn, hn'⟩ := h.announced
  obtain ⟨body, hbody, hbody'⟩ := h.bodies
  rcases Nat.lt_or_ge limit n with hlimit | hlimit
  · rw [wholeBody_of_tooLarge hn hlimit, wholeBody_of_tooLarge hn' hlimit]
  · rw [wholeBody_of_announced hn hlimit hbody, wholeBody_of_announced hn' hlimit hbody']

theorem toPayload_eq (h : r.Alike r') (c : Config) : (r.toPayload c).1 = (r'.toPayload c).1 := by
  rw [toPayload_fst, toPayload_fst, h.wholeBody_eq]

theorem begin_eq (h : r.Alike r') (c : Config) (n : Nat) :
    (begin c n r).1 = (begin c n r').1 := by
  rw [begin_of_post h.paths.1 h.methods.1, begin_of_post h.paths.2 h.methods.2, h.toPayload_eq]

theorem conclude_eq (h : r.Alike r') (result : Except Failure Bytes) :
    conclude r result = conclude r' result := by
  cases result <;> simp only [conclude, h.methods.1, h.methods.2]

theorem handle_eq (h : r.Alike r') (c : Config) (n : Nat) (attempts : List Attempt) :
    (handle c n attempts r).1 = (handle c n attempts r').1 := by
  rw [handle_fst, handle_fst, h.begin_eq]
  simp only [h.conclude_eq]

end Request.Alike

end Http

/-! ## Queries and acts -/

/-- Two queries that are alike. -/
inductive Query.Alike : Query → Query → Prop
  | refl (q : Query) : Alike q q
  | request {r r' : Http.Request} (h : r.Alike r') : Alike (.request r) (.request r')

/-- Two acts that are alike. -/
inductive Act.Alike : Act → Act → Prop
  | call {q q' : Query} (h : q.Alike q') : Alike (.call q) (.call q')
  | start {q q' : Query} (name : String) (h : q.Alike q') : Alike (.start name q) (.start name q')
  | finish (name : String) : Alike (.finish name) (.finish name)
  | overrun {q q' : Query} (h : q.Alike q') : Alike (.overrun q) (.overrun q')

/-- Two queries that wait for the same exchange and are alike. -/
structure Waiting.Alike (w w' : Waiting) : Prop where
  name : w'.name = w.name
  query : w.query.Alike w'.query
  job : w'.job = w.job
  connection : w'.connection = w.connection

namespace Session

variable {s s' : Session} {q q' : Query} {a a' : Act}

section

variable (h : q.Alike q')

include h

theorem verdict_of_alike (s : Session) : s.verdict q = s.verdict q' := by
  cases h with
  | refl => rfl
  | request h => exact h.begin_eq _ _

theorem tell_of_alike (s : Session) (job : Nat) : s.tell q job = s.tell q' job := by
  cases h with
  | refl => rfl
  | request h => simp only [tell, h.conclude_eq]

theorem isBounded_of_alike : isBounded q = isBounded q' := by
  cases h <;> rfl

theorem call_of_alike (s : Session) : s.call q = s.call q' := by
  simp only [call, verdict_of_alike h s, isBounded_of_alike h, tell_of_alike h]

theorem overrun_of_alike (s : Session) : s.overrun q = s.overrun q' := by
  simp only [overrun, verdict_of_alike h s, tell_of_alike h]

end

/-! ## Sessions with other queries waiting -/

/-- The session with these queries waiting. -/
def withWaiting (s : Session) (waiting : List Waiting) : Session := { s with waiting }

section

variable (s : Session) (waiting : List Waiting)

theorem waiting_withWaiting : (s.withWaiting waiting).waiting = waiting := rfl

theorem withWaiting_count (job : Nat) :
    (s.withWaiting waiting).count job = (s.count job).withWaiting waiting := by
  have hstage : (s.withWaiting waiting).stage? job = s.stage? job := rfl
  unfold count
  rw [hstage]
  split <;> rfl

theorem withWaiting_advance (more : Stage → Bool) (job : Nat) :
    (s.withWaiting waiting).advance more job = (s.advance more job).withWaiting waiting := rfl

/-- What is done for a new exchange leaves the queries that wait. -/
theorem waiting_count_advance_put (s : Session) (payload : Bytes) (more : Stage → Bool)
    (job : Nat) : (((s.put payload).1.advance more job).count job).waiting = s.waiting :=
  (Reaches.trans (.put s payload) (.trans (.advance _ _ _) (.count _ _))).waiting

theorem withWaiting_finish (bounded : Bool) (job : Nat) :
    (s.withWaiting waiting).finish bounded job = (s.finish bounded job).withWaiting waiting := by
  have hbound : (s.withWaiting waiting).forwarder.config.taskTimeout? =
      s.forwarder.config.taskTimeout? := rfl
  unfold finish
  rw [hbound]
  split <;> rfl

theorem withWaiting_foldl_expire (jobs : List Nat) :
    jobs.foldl expire (s.withWaiting waiting) = (jobs.foldl expire s).withWaiting waiting := by
  induction jobs generalizing s with
  | nil => rfl
  | cons job jobs ih => exact ih (s.expire job)

theorem withWaiting_tell (q : Query) (job : Nat) :
    (s.withWaiting waiting).tell q job = s.tell q job := by
  cases q <;> rfl

theorem withWaiting_put (payload : Bytes) : (s.withWaiting waiting).put payload =
    ((s.put payload).1.withWaiting waiting, (s.put payload).2) := rfl

theorem withWaiting_verdict (q : Query) : (s.withWaiting waiting).verdict q = s.verdict q := by
  cases q <;> rfl

theorem withWaiting_call (q : Query) : (s.withWaiting waiting).call q =
    ((s.call q).1.withWaiting waiting, (s.call q).2) := by
  unfold call
  rw [withWaiting_verdict]
  split
  · rfl
  · simp only [withWaiting_put, withWaiting_finish, withWaiting_count, withWaiting_tell]
    rfl

theorem withWaiting_overrun {s : Session} {waiting : List Waiting}
    (hjobs : waiting.map Waiting.job = s.waiting.map Waiting.job) (q : Query) :
    (s.withWaiting waiting).overrun q =
      ((s.overrun q).1.withWaiting waiting, (s.overrun q).2) := by
  unfold overrun
  rw [withWaiting_verdict]
  split
  · rfl
  · simp only [withWaiting_put, withWaiting_advance, withWaiting_count, waiting_withWaiting, hjobs,
      waiting_count_advance_put, withWaiting_foldl_expire]
    cases q <;> rfl

end

/-! ## Sessions that are alike -/

/-- Two sessions that differ at most in the queries that wait, which are alike. -/
def Alike (s s' : Session) : Prop :=
  ∃ waiting, s' = s.withWaiting waiting ∧ List.Forall₂ Waiting.Alike s.waiting waiting

/-- What a session reports of some acts. -/
def reports (s : Session) : List Act → List Report
  | [] => []
  | a :: acts => (s.act a).2 :: (s.act a).1.reports acts

theorem after_cons (s : Session) (a : Act) (acts : List Act) :
    s.after (a :: acts) = (s.act a).1.after acts := rfl

section Waiting

variable {ws ws' : List Waiting} (h : List.Forall₂ Waiting.Alike ws ws')

include h

theorem jobs_of_alike : ws'.map Waiting.job = ws.map Waiting.job := by
  induction h with
  | nil => rfl
  | cons hw _ ih => rw [List.map_cons, List.map_cons, ih, hw.job]

theorem filter_of_alike (name : String) :
    List.Forall₂ Waiting.Alike (ws.filter fun w => w.name != name)
      (ws'.filter fun w => w.name != name) := by
  induction h with
  | nil => exact .nil
  | @cons w w' ws ws' hw _ ih =>
    rw [List.filter_cons, List.filter_cons, hw.name]
    split
    · exact .cons hw ih
    · exact ih

theorem find?_of_alike (name : String) :
    ((ws.find? fun w => w.name == name) = none ∧ (ws'.find? fun w => w.name == name) = none) ∨
      ∃ w w', (ws.find? fun w => w.name == name) = some w ∧
        (ws'.find? fun w => w.name == name) = some w' ∧ w.Alike w' := by
  induction h with
  | nil => exact Or.inl ⟨rfl, rfl⟩
  | @cons w w' ws ws' hw _ ih =>
    rw [List.find?_cons, List.find?_cons, hw.name]
    cases w.name == name with
    | true => exact Or.inr ⟨w, w', rfl, rfl, hw⟩
    | false => exact ih

end Waiting

namespace Alike

theorem refl (s : Session) : Alike s s :=
  ⟨s.waiting, rfl, List.forall₂_same.2 fun w _ => ⟨rfl, .refl w.query, rfl, rfl⟩⟩

theorem forwarder_eq (h : Alike s s') : s'.forwarder = s.forwarder := by
  obtain ⟨waiting, rfl, -⟩ := h
  rfl

theorem call (h : Alike s s') (hq : q.Alike q') :
    Alike (s.call q).1 (s'.call q').1 ∧ (s.call q).2 = (s'.call q').2 := by
  obtain ⟨waiting, rfl, hwaiting⟩ := h
  rw [← call_of_alike hq, withWaiting_call]
  exact ⟨⟨waiting, rfl, (reaches_call s q).waiting ▸ hwaiting⟩, rfl⟩

theorem overrun (h : Alike s s') (hq : q.Alike q') :
    Alike (s.overrun q).1 (s'.overrun q').1 ∧ (s.overrun q).2 = (s'.overrun q').2 := by
  obtain ⟨waiting, rfl, hwaiting⟩ := h
  rw [← overrun_of_alike hq, withWaiting_overrun (jobs_of_alike hwaiting)]
  exact ⟨⟨waiting, rfl, (reaches_overrun s q).waiting ▸ hwaiting⟩, rfl⟩

theorem start (h : Alike s s') (name : String) (hq : q.Alike q') :
    Alike (s.start name q).1 (s'.start name q').1 ∧
      (s.start name q).2 = (s'.start name q').2 := by
  obtain ⟨waiting, rfl, hwaiting⟩ := h
  unfold Session.start
  rw [withWaiting_verdict, ← verdict_of_alike hq]
  split
  · exact ⟨⟨waiting, rfl, hwaiting⟩, rfl⟩
  · simp only [withWaiting_put, withWaiting_advance, withWaiting_count, waiting_count_advance_put]
    have hnew : Waiting.Alike ⟨name, q, s.forwarder.jobs.length, s.accepted⟩
        ⟨name, q', s.forwarder.jobs.length, s.accepted⟩ := ⟨rfl, hq, rfl, rfl⟩
    exact ⟨⟨_, rfl, List.rel_append hwaiting (.cons hnew .nil)⟩, rfl⟩

theorem resume (h : Alike s s') (name : String) :
    Alike (s.resume name).1 (s'.resume name).1 ∧ (s.resume name).2 = (s'.resume name).2 := by
  obtain ⟨waiting, rfl, hwaiting⟩ := h
  unfold Session.resume
  rw [waiting_withWaiting]
  rcases find?_of_alike hwaiting name with ⟨hnone, hnone'⟩ | ⟨w, w', hw, hw', hlike⟩
  · rw [hnone, hnone']
    exact ⟨⟨waiting, rfl, hwaiting⟩, rfl⟩
  · have hkept := (Reaches.finish s (isBounded w.query) w.job).waiting
    rw [hw, hw']
    simp only [hlike.job, hlike.connection, ← isBounded_of_alike hlike.query,
      withWaiting_finish, waiting_withWaiting, hkept, ← tell_of_alike hlike.query]
    refine ⟨⟨_, rfl, filter_of_alike hwaiting name⟩, ?_⟩
    cases w.query <;> rfl

/-- Acts that are alike keep sessions alike and report the same. -/
theorem act (h : Alike s s') (ha : a.Alike a') :
    Alike (s.act a).1 (s'.act a').1 ∧ (s.act a).2 = (s'.act a').2 := by
  cases ha with
  | call hq => exact h.call hq
  | start name hq => exact h.start name hq
  | finish name => exact h.resume name
  | overrun hq => exact h.overrun hq

theorem acts (h : Alike s s') {as as' : List Act} (has : List.Forall₂ Act.Alike as as') :
    Alike (s.after as) (s'.after as') ∧ s.reports as = s'.reports as' := by
  induction has generalizing s s' with
  | nil => exact ⟨h, rfl⟩
  | cons ha _ ih =>
    obtain ⟨hafter, hreport⟩ := h.act ha
    obtain ⟨hlast, hreports⟩ := ih hafter
    exact ⟨hlast, by rw [reports, reports, hreport, hreports]⟩

end Alike

end Session

/-- Nothing of a request but its body reaches the destination or the answer. Two POSTs with paths
that announce the same length and have the same body, however it is cut, come to the same payload
or the same refusal and are answered the same, however dialling goes and the connection behaves;
and in every session, lists of acts whose requests are alike give the same reports, with the same
answers and the same bytes on each connection, and leave the same exchanges behind. -/
theorem only_bodies_count (c : Config) :
    (∀ r r' : Http.Request, r.Alike r' → ∀ n attempts,
      (Http.begin c n r).1 = (Http.begin c n r').1 ∧
        (Http.handle c n attempts r).1 = (Http.handle c n attempts r').1) ∧
    ∀ (s : Session) (acts acts' : List Act), s.forwarder.config = c →
      List.Forall₂ Act.Alike acts acts' →
        s.reports acts = s.reports acts' ∧
          (s.after acts).forwarder = (s.after acts').forwarder := by
  refine ⟨fun r r' h n attempts => ⟨h.begin_eq c n, h.handle_eq c n attempts⟩, ?_⟩
  intro s acts acts' _ hacts
  obtain ⟨hafter, hreports⟩ := (Session.Alike.refl s).acts hacts
  exact ⟨hreports, hafter.forwarder_eq.symm⟩

/-- A request with the body of `piecemealRequest` in one piece, put at the path of the state of the
relay. -/
def healthPost : Http.Request where
  target := "/health"
  headers := [("x", []), ("CONTENT-LENGTH", [0x2B, 0x30, 0x32])]
  body := [.data [0x68, 0x69]]

/-- The two requests are alike, and one put after the other is answered as it is. -/
theorem only_bodies_count_healthPost : piecemealRequest.Alike healthPost ∧
    (Session.new defaultConfig { }).reports [.start "a" (.request piecemealRequest), .finish "a"] =
      (Session.new defaultConfig { }).reports [.start "a" (.request healthPost), .finish "a"] := by
  have halike : piecemealRequest.Alike healthPost :=
    ⟨⟨rfl, rfl⟩, ⟨by decide +kernel, by decide +kernel⟩, ⟨2, by decide, by decide⟩,
      ⟨[0x68, 0x69], ⟨[[0x68], [], [0x69]], rfl, rfl⟩, ⟨[[0x68, 0x69]], rfl, rfl⟩⟩⟩
  have hacts : List.Forall₂ Act.Alike [.start "a" (.request piecemealRequest), .finish "a"]
      [.start "a" (.request healthPost), .finish "a"] :=
    .cons (.start "a" (.request halike)) (.cons (.finish "a") .nil)
  obtain ⟨hreports, -⟩ :=
    (only_bodies_count defaultConfig).2 (Session.new defaultConfig { }) _ _ rfl hacts
  exact ⟨halike, hreports⟩

end FramedRelay
