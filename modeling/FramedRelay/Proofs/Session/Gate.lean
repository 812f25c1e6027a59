import FramedRelay.Proofs.Http.Admission

/-!
# The gate

Whether the destination is dialled for a request is decided before anything else is done for it.
In every session, an act that puts an admitted request starts exactly one exchange, of the payload
that the mode makes of the body, and takes it past dialling; an act that puts any other request
leaves the session as it is and answers at once (`Session.Gated`). `request_gate` says so for every
request with a path, next to the same for the service by itself.

An act takes steps of the exchange that it starts and of no other, so what it does is read off the
list of all exchanges (`Forwarder.exchanges_advance`).
-/

namespace FramedRelay

/-! ## Steps of one exchange -/

/-- Dialling has come to its end. -/
def Stage.HasDialled : Stage → Prop
  | .dialling .. => False
  | _ => True

/-- An exchange that takes steps while `more` holds. -/
def Exchange.advance (c : Config) (more : Stage → Bool) (x : Exchange) : Exchange :=
  { x with stage := (x.stage.advance c x.payload more).1 }

section Steps

variable {c : Config} {more : Stage → Bool} {s : Stage} {x : Exchange}

theorem Stage.exists_iterate_next_of_advance (c : Config) (payload : Bytes)
    (more : Stage → Bool) (s : Stage) :
    ∃ k, (⟨payload, (s.advance c payload more).1⟩ : Exchange) =
      (Exchange.next c)^[k] (⟨payload, s⟩ : Exchange) := by
  fun_induction Stage.advance c payload more s with
  | case1 s result h => exact ⟨0, rfl⟩
  | case2 s h hmore _ move last events effects hrun ih =>
    rw [hrun] at ih
    obtain ⟨k, hk⟩ := ih
    exact ⟨k + 1, hk.trans (Function.iterate_succ_apply _ k (⟨payload, s⟩ : Exchange)).symm⟩
  | case3 s h hmore => exact ⟨0, rfl⟩

/-- Steps that are taken while nothing of a reply was read end past dialling. -/
theorem Stage.hasDialled_advance (c : Config) (payload : Bytes)
    (hmore : ∀ clock left last?, more (.dialling clock left last?) = true) (s : Stage) :
    (s.advance c payload more).1.HasDialled := by
  fun_induction Stage.advance c payload more s with
  | case1 s result h =>
    cases s with
    | dialling => cases h
    | sending | receiving | releasing | ended => trivial
  | case2 s h _ _ move last events effects hrun ih => rwa [hrun] at ih
  | case3 s h hstop =>
    cases s with
    | dialling clock left last? => exact (hstop (hmore clock left last?)).elim
    | sending | receiving | releasing | ended => trivial

theorem Exchange.exists_iterate_next_of_advance (c : Config) (more : Stage → Bool)
    (x : Exchange) : ∃ k, x.advance c more = (Exchange.next c)^[k] x :=
  Stage.exists_iterate_next_of_advance c x.payload more x.stage

theorem Forwarder.exchanges_advance (f : Forwarder) (more : Stage → Bool) (i : Nat) :
    (f.advance more i).1.exchanges = f.exchanges.modify i (Exchange.advance f.config more) := by
  rw [List.modify_eq_set_getElem?]
  unfold advance
  cases hjob : f.jobs[i]? with
  | none => simp [exchanges, hjob]
  | some job => simp [exchanges, hjob, List.map_set, Exchange.advance]

end Steps

/-- What an act puts, if it puts a query. -/
def Act.query? : Act → Option Query
  | .call q | .start _ q | .overrun q => some q
  | .finish _ => none

namespace Session

variable {s s' : Session} {xs : List Exchange} {x : Exchange} {more : Stage → Bool} {a : Act}
  {q : Query} {payload : Bytes}

/-! ## The exchange that an act starts -/

/-- The last exchange is where steps of its own have led `x`, and the others are `xs`. -/
def EndsWith (s : Session) (xs : List Exchange) (x : Exchange) : Prop :=
  ∃ k, s.forwarder.exchanges = xs ++ [(Exchange.next s.forwarder.config)^[k] x]

/-- Moreover, the last exchange has come past dialling. -/
def EndsDialled (s : Session) (xs : List Exchange) (x : Exchange) : Prop :=
  ∃ k, s.forwarder.exchanges = xs ++ [(Exchange.next s.forwarder.config)^[k] x] ∧
    ((Exchange.next s.forwarder.config)^[k] x).stage.HasDialled

theorem endsWith_put (s : Session) (payload : Bytes) :
    (s.put payload).1.EndsWith s.forwarder.exchanges
      (.start payload 0 (s.peer.attempts s.forwarder.config payload s.accepted)) :=
  ⟨0, Forwarder.exchanges_start _ _ _ _⟩

namespace EndsWith

theorem expire (h : s.EndsWith xs x) (job : Nat) : (s.expire job).EndsWith xs x := by
  obtain ⟨k, hk⟩ := h
  refine ⟨k, ?_⟩
  rw [(Reaches.expire s job).config, ← hk]
  exact Forwarder.exchanges_expire _ _

theorem exchanges_advance (h : s.EndsWith xs x) (more : Stage → Bool) :
    ∃ k, (s.advance more xs.length).forwarder.exchanges =
        xs ++ [(Exchange.next s.forwarder.config)^[k] x] ∧
      ∃ y : Exchange, (Exchange.next s.forwarder.config)^[k] x =
        y.advance s.forwarder.config more := by
  obtain ⟨k, hk⟩ := h
  obtain ⟨k', hk'⟩ := Exchange.exists_iterate_next_of_advance s.forwarder.config more
    ((Exchange.next s.forwarder.config)^[k] x)
  refine ⟨k' + k, ?_, _, by rw [Function.iterate_add_apply, hk']⟩
  rw [Function.iterate_add_apply, ← hk']
  change (s.forwarder.advance more xs.length).1.exchanges = _
  rw [Forwarder.exchanges_advance, hk, List.modify_eq_set_getElem?]
  simp

theorem advance (h : s.EndsWith xs x) (more : Stage → Bool) :
    (s.advance more xs.length).EndsWith xs x := by
  obtain ⟨k, hk, -⟩ := h.exchanges_advance more
  exact ⟨k, (Reaches.advance s more xs.length).config ▸ hk⟩

/-- Steps that are taken at least while dialling come past it. -/
theorem dialled (h : s.EndsWith xs x)
    (hmore : ∀ clock left last?, more (.dialling clock left last?) = true) :
    (s.advance more xs.length).EndsDialled xs x := by
  obtain ⟨k, hk, y, hy⟩ := h.exchanges_advance more
  have hdialled : ((Exchange.next s.forwarder.config)^[k] x).stage.HasDialled :=
    hy ▸ Stage.hasDialled_advance _ _ hmore _
  rw [EndsDialled, (Reaches.advance s more xs.length).config]
  exact ⟨k, hk, hdialled⟩

theorem dialled_beforeReply (h : s.EndsWith xs x) :
    (s.advance beforeReply xs.length).EndsDialled xs x :=
  h.dialled fun _ _ _ => rfl

theorem finish (h : s.EndsWith xs x) (bounded : Bool) :
    (s.finish bounded xs.length).EndsDialled xs x := by
  unfold Session.finish
  split
  · exact ((h.advance _).expire _).dialled fun _ _ _ => rfl
  · exact h.dialled fun _ _ _ => rfl

end EndsWith

namespace EndsDialled

theorem of_exchanges_eq (h : s.EndsDialled xs x)
    (hconfig : s'.forwarder.config = s.forwarder.config)
    (hexchanges : s'.forwarder.exchanges = s.forwarder.exchanges) : s'.EndsDialled xs x := by
  rw [EndsDialled, hconfig, hexchanges]
  exact h

theorem count (h : s.EndsDialled xs x) (job : Nat) : (s.count job).EndsDialled xs x :=
  h.of_exchanges_eq (by rw [forwarder_count]) (by rw [forwarder_count])

theorem foldl_expire (h : s.EndsDialled xs x) (jobs : List Nat) :
    (jobs.foldl Session.expire s).EndsDialled xs x := by
  induction jobs generalizing s with
  | nil => exact h
  | cons job jobs ih =>
    exact ih (h.of_exchanges_eq (Reaches.expire s job).config (Forwarder.exchanges_expire _ _))

/-- More steps leave the end of dialling behind. -/
theorem advance (h : s.EndsDialled xs x) : (s.advance (fun _ => true) xs.length).EndsDialled xs x :=
  let ⟨k, hk, _⟩ := h
  EndsWith.dialled ⟨k, hk⟩ fun _ _ _ => rfl

end EndsDialled

/-- An act that puts a query to be forwarded starts its exchange and takes it past dialling. -/
theorem endsDialled_act (ha : a.query? = some q) (hq : s.verdict q = .forward payload) :
    (s.act a).1.EndsDialled s.forwarder.exchanges
      (.start payload 0 (s.peer.attempts s.forwarder.config payload s.accepted)) := by
  have hput := endsWith_put s payload
  have hlength := s.forwarder.length_exchanges
  cases a with
  | finish name => cases ha
  | call q' =>
    obtain rfl := Option.some.inj ha
    have hdialled := (hput.finish (isBounded q')).count s.forwarder.exchanges.length
    rw [hlength] at hdialled
    rw [act, call, hq]
    exact hdialled
  | start name q' =>
    obtain rfl := Option.some.inj ha
    have hdialled := hput.dialled_beforeReply.count s.forwarder.exchanges.length
    rw [hlength] at hdialled
    rw [act, start, hq]
    exact hdialled.of_exchanges_eq rfl rfl
  | overrun q' =>
    obtain rfl := Option.some.inj ha
    have hdialled := hput.dialled_beforeReply.count s.forwarder.exchanges.length
    have hended (jobs : List Nat) := (hdialled.foldl_expire jobs).advance
    simp only [hlength] at hended
    rw [act, overrun, hq]
    exact hended _

/-- An act that puts a query to be answered at once does nothing but answer it. -/
theorem act_of_respond {response : Http.Response} (ha : a.query? = some q)
    (hq : s.verdict q = .respond response) :
    s.act a = (s, s.report (some (.response response))) := by
  cases a with
  | finish name => cases ha
  | call q' | start name q' | overrun q' =>
    obtain rfl := Option.some.inj ha
    simp only [act, call, start, overrun, hq]

/-! ## The gate -/

/-- What an act does that puts a request. -/
structure Gated (s : Session) (a : Act) (r : Http.Request) : Prop where
  /-- For an admitted request exactly one exchange is started, of its payload, and it comes past
  dialling. -/
  admitted : ∀ payload, r.Admitted s.forwarder.config payload →
    (s.act a).1.EndsDialled s.forwarder.exchanges
      (.start payload 0 (s.peer.attempts s.forwarder.config payload s.accepted))
  /-- Any other request is answered at once, and leaves everything as it is. -/
  refused : (∀ payload, ¬r.Admitted s.forwarder.config payload) → (s.act a).1 = s ∧
    ∃ response, (s.act a).2 = s.report (some (.response response)) ∧ r.AnsweredAtOnce response

theorem gated {r : Http.Request} (hpath : r.path.toList.head? = some '/')
    (ha : a.query? = some (.request r)) : s.Gated a r := by
  refine ⟨fun payload hadmitted => ?_, fun hnone => ?_⟩
  · exact endsDialled_act ha ((Http.begin_eq_forward_iff hpath).2 hadmitted)
  · rcases hbegin : (Http.begin s.forwarder.config s.forwarder.openConnections r).1 with
      response | payload
    · have hact := act_of_respond ha hbegin
      exact ⟨by rw [hact], response, by rw [hact],
        Http.answeredAtOnce_of_respond hpath hbegin⟩
    · exact (hnone payload ((Http.begin_eq_forward_iff hpath).1 hbegin)).elim

end Session

/-- The gate before the destination. Let the path of a request start with a slash. The service
forwards it exactly if it is admitted, whatever else is going on, and with the payload of the
whole body; and in every session, an act that puts it dials the destination for that payload if it
is admitted, and otherwise answers at once and leaves the session as it is. -/
theorem request_gate (c : Config) (r : Http.Request) (hpath : r.path.toList.head? = some '/') :
    (∀ n payload, (Http.begin c n r).1 = .forward payload ↔ r.Admitted c payload) ∧
    (∀ n response, (Http.begin c n r).1 = .respond response → r.AnsweredAtOnce response) ∧
    ∀ (s : Session) (a : Act), s.forwarder.config = c → a.query? = some (.request r) →
      s.Gated a r :=
  ⟨fun _ _ => Http.begin_eq_forward_iff hpath,
    fun _ _ h => Http.answeredAtOnce_of_respond hpath h,
    fun _ _ _ ha => Session.gated hpath ha⟩

/-- A request whose body comes in three pieces, one of them empty, and that announces another
length after the first. -/
def piecemealRequest : Http.Request where
  target := "/a?b"
  headers := [("Content-Length", [0x20, 0x32]), ("content-length", [0x39])]
  body := [.data [0x68], .data [], .data [0x69]]

/-- A request admitted in pieces, and one of another method. -/
theorem request_gate_piecemealRequest :
    (Http.begin defaultConfig 3 piecemealRequest).1 = .forward [0x68, 0x69] ∧
      ((Session.new defaultConfig { }).act
        (.call (.request { piecemealRequest with method := "PUT" }))).1 =
        Session.new defaultConfig { } := by
  have hpost : piecemealRequest.path.toList.head? = some '/' := by decide +kernel
  have hput : ({ piecemealRequest with method := "PUT" } : Http.Request).path.toList.head? =
      some '/' := by decide +kernel
  have hadmitted : piecemealRequest.Admitted defaultConfig [0x68, 0x69] :=
    ⟨rfl, [0x68, 0x69], by decide, by decide, ⟨[[0x68], [], [0x69]], rfl, rfl⟩, rfl⟩
  refine ⟨((request_gate defaultConfig piecemealRequest hpost).1 3 _).2 hadmitted, ?_⟩
  refine (((request_gate defaultConfig _ hput).2.2 _ _ rfl rfl).refused ?_).1
  intro payload h
  exact absurd h.method (by decide)

end FramedRelay
