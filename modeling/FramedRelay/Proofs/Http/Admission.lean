import FramedRelay.Http.Service
import FramedRelay.Proofs.Session.Refusals

/-!
# Which requests are forwarded

A request is forwarded if its method is POST, the first length that it announces is within the
limit, no piece of its body fails, the pieces together have exactly the length announced, and the
JSON mode takes them (`Http.Request.Admitted`). This is all that decides (`begin_eq_forward_iff`);
every other request with a path is answered at once, a POST with a failure that the request itself
is at fault for (`answeredAtOnce_of_respond`).

How the body is cut does not matter, since reading it within some room gives the pieces together
or finds them too long (`readBody_data`).
-/

namespace FramedRelay

/-! ## Payloads -/

namespace Payload

variable {mode : JsonMode} {framing : Framing} {body payload : Bytes}

/-- A mode takes a body and makes a payload of it. -/
def Takes (mode : JsonMode) (body payload : Bytes) : Prop :=
  match mode with
  | .passthrough => payload = body
  | .validate => Json.skim body = .ok () ∧ payload = body
  | .compact => ∃ v, Json.read body = .ok v ∧ payload = v.print

theorem ofBody_eq_ok_iff : (ofBody mode body).1 = .ok payload ↔ Takes mode body payload := by
  cases mode with
  | passthrough =>
    simp only [ofBody, Takes]
    split <;> simp [eq_comm]
  | validate =>
    simp only [ofBody, Takes]
    split
    · next h => simp [h, eq_comm]
    · next h => simp [h]
  | compact =>
    simp only [ofBody, Takes]
    split
    · next h => simp [h, eq_comm]
    · next h => simp [h]

/-- The framing has no say in what the payload is. -/
theorem prepare_fst (body : Bytes) (mode : JsonMode) (framing : Framing) :
    (prepare body mode framing).1 = (ofBody mode body).1 := by
  unfold prepare
  rcases ofBody mode body with ⟨_ | _, events⟩ <;> rfl

/-- A body that a mode does not take is malformed. -/
theorem isRefusal_of_prepare {f : Failure} (h : (prepare body mode framing).1 = .error f) :
    f.IsRefusal := by
  have hnot : ∀ e, (notJson e).IsRefusal := fun _ => trivial
  rw [prepare_fst] at h
  cases mode with
  | passthrough =>
    simp only [ofBody] at h
    split at h <;> cases h
  | validate | compact =>
    simp only [ofBody] at h
    split at h
    · cases h
    · obtain rfl := Except.error.inj h
      exact hnot _

end Payload

namespace Http

/-! ## Bodies -/

section Body

variable {room : Nat} {pieces : List Piece} {parts : List Bytes} {body : Bytes}

/-- Pieces none of which fails are read together if there is room for them. -/
theorem readBody_data (room : Nat) (parts : List Bytes) :
    readBody room (parts.map .data) =
      if parts.flatten.length ≤ room then .ok parts.flatten else .error .tooLong := by
  induction parts generalizing room with
  | nil => simp [readBody]
  | cons part parts ih =>
    simp only [List.map_cons, readBody, ih, List.flatten_cons, List.length_append]
    split
    · rw [if_neg (by omega)]
    · split
      · rw [if_pos (by omega)]
        rfl
      · rw [if_neg (by omega)]
        rfl

/-- A body is read only if none of its pieces fails. -/
theorem exists_parts_of_readBody (h : readBody room pieces = .ok body) :
    ∃ parts : List Bytes, pieces = parts.map .data ∧ parts.flatten = body := by
  induction pieces generalizing room body with
  | nil =>
    obtain rfl := Except.ok.inj h
    exact ⟨[], rfl, rfl⟩
  | cons piece pieces ih =>
    cases piece with
    | fault reason => cases h
    | data bytes =>
      simp only [readBody] at h
      split at h
      · cases h
      · rcases hrest : readBody (room - bytes.length) pieces with e | rest
        · rw [hrest] at h
          cases h
        · rw [hrest] at h
          obtain rfl := Except.ok.inj h
          obtain ⟨parts, rfl, rfl⟩ := ih hrest
          exact ⟨bytes :: parts, rfl, rfl⟩

end Body

namespace Request

variable {r : Request} {c : Config} {limit n : Nat} {body payload : Bytes} {f : Failure}

/-- The length that a request announces for its body, in the first header that does. -/
def announced? (r : Request) : Option Nat :=
  (r.headers.first? "content-length").bind lengthOf?

/-- No piece of the body fails, and together they are these bytes. -/
def Holds (r : Request) (body : Bytes) : Prop :=
  ∃ parts : List Bytes, r.body = parts.map .data ∧ parts.flatten = body

theorem contentLength_eq_ok_iff :
    contentLength r.headers limit = .ok n ↔ r.announced? = some n ∧ n ≤ limit := by
  unfold contentLength announced?
  rcases r.headers.first? "content-length" with _ | value
  · simp
  · simp only [Option.bind_some]
    rcases lengthOf? value with _ | k
    · simp
    · simp only [Option.some.injEq]
      split
      · next h =>
        constructor
        · intro hk
          cases hk
        · rintro ⟨rfl, hn⟩
          omega
      · next h =>
        refine ⟨fun hk => ?_, ?_⟩
        · obtain rfl := Except.ok.inj hk
          exact ⟨rfl, Nat.le_of_not_lt h⟩
        · rintro ⟨rfl, -⟩
          rfl

theorem isRefusal_of_contentLength (h : contentLength r.headers limit = .error f) :
    f.IsRefusal := by
  unfold contentLength at h
  split at h
  · obtain rfl := Except.error.inj h
    trivial
  · split at h
    · obtain rfl := Except.error.inj h
      trivial
    · split at h
      · obtain rfl := Except.error.inj h
        trivial
      · cases h

/-- The body of a request that announces a length within the limit. -/
theorem wholeBody_of_announced (hn : r.announced? = some n) (hlimit : n ≤ limit)
    (hbody : r.Holds body) : (r.wholeBody limit).1 =
      if body.length = n then .ok body
      else if body.length < n then .error (shortfall body.length n)
      else .error (mismatch n) := by
  obtain ⟨parts, hparts, rfl⟩ := hbody
  rw [wholeBody, contentLength_eq_ok_iff.2 ⟨hn, hlimit⟩, hparts]
  simp only [readBody_data]
  rcases Nat.lt_trichotomy parts.flatten.length n with h | h | h
  · rw [if_pos h.le, if_neg h.ne, if_pos h]
    simp only [if_neg h.ne]
  · rw [if_pos h.le, if_pos h]
    simp only [if_pos h]
  · rw [if_neg (Nat.not_le.2 h), if_neg h.ne', if_neg h.not_gt]

theorem wholeBody_eq_ok_iff : (r.wholeBody limit).1 = .ok body ↔
    r.announced? = some body.length ∧ body.length ≤ limit ∧ r.Holds body := by
  constructor
  · intro h
    unfold wholeBody at h
    split at h
    · cases h
    · next length hlength =>
      obtain ⟨hannounced, hlimit⟩ := contentLength_eq_ok_iff.1 hlength
      split at h
      · cases h
      · next whole hwhole =>
        split at h
        · next hsize =>
          obtain rfl := Except.ok.inj h
          exact ⟨hsize ▸ hannounced, hsize ▸ hlimit, exists_parts_of_readBody hwhole⟩
        · cases h
  · rintro ⟨hannounced, hlimit, hbody⟩
    rw [wholeBody_of_announced hannounced hlimit hbody, if_pos rfl]

theorem isRefusal_of_wholeBody (h : (r.wholeBody limit).1 = .error f) : f.IsRefusal := by
  unfold wholeBody at h
  split at h
  · next hlength =>
    obtain rfl := Except.error.inj h
    exact isRefusal_of_contentLength hlength
  · split at h
    · obtain rfl := Except.error.inj h
      trivial
    · split at h
      · cases h
      · obtain rfl := Except.error.inj h
        trivial

/-! ## Admission -/

/-- What it takes for a request to be forwarded, with the payload. -/
structure Admitted (c : Config) (r : Request) (payload : Bytes) : Prop where
  method : r.method = "POST"
  body : ∃ body, r.announced? = some body.length ∧ body.length ≤ c.maxRequestBytes ∧
    r.Holds body ∧ Payload.Takes c.jsonMode body payload

/-- What the payload is in terms of the whole body. -/
theorem toPayload_fst (c : Config) (r : Request) : (r.toPayload c).1 =
    (r.wholeBody c.maxRequestBytes).1.bind fun body =>
      (Payload.prepare body c.jsonMode c.framing).1 := by
  unfold toPayload
  rcases r.wholeBody c.maxRequestBytes with ⟨_ | body, events⟩
  · rfl
  · simp only [Except.bind]
    rcases Payload.prepare body c.jsonMode c.framing with ⟨_ | payload, later⟩ <;> rfl

theorem toPayload_eq_ok_iff : (r.toPayload c).1 = .ok payload ↔
    ∃ body, r.announced? = some body.length ∧ body.length ≤ c.maxRequestBytes ∧
      r.Holds body ∧ Payload.Takes c.jsonMode body payload := by
  rw [toPayload_fst]
  constructor
  · intro h
    obtain ⟨body, hbody, hpayload⟩ := Except.bind_ok h
    obtain ⟨hannounced, hlimit, hholds⟩ := wholeBody_eq_ok_iff.1 hbody
    rw [Payload.prepare_fst, Payload.ofBody_eq_ok_iff] at hpayload
    exact ⟨body, hannounced, hlimit, hholds, hpayload⟩
  · rintro ⟨body, hannounced, hlimit, hholds, htakes⟩
    rw [wholeBody_eq_ok_iff.2 ⟨hannounced, hlimit, hholds⟩]
    exact (Payload.prepare_fst _ _ _).trans (Payload.ofBody_eq_ok_iff.2 htakes)

theorem isRefusal_of_toPayload (h : (r.toPayload c).1 = .error f) : f.IsRefusal := by
  rw [toPayload_fst] at h
  rcases hbody : (r.wholeBody c.maxRequestBytes).1 with g | body
  · rw [hbody] at h
    obtain rfl : g = f := Except.error.inj h
    exact isRefusal_of_wholeBody hbody
  · rw [hbody] at h
    exact Payload.isRefusal_of_prepare h

/-- The request is for the state of the relay. -/
def AsksHealth (r : Request) : Prop :=
  r.path = "/health" ∧ (r.method = "GET" ∨ r.method = "HEAD")

/-- The answer to a request that is not forwarded. -/
structure AnsweredAtOnce (r : Request) (response : Response) : Prop where
  /-- A POST is refused. -/
  post : r.method = "POST" → response.status = 500 ∧
    ∃ f : Failure, f.IsRefusal ∧ response = (Response.ofFailure f).complete "POST"
  health : r.AsksHealth → response.status = 200
  other : r.method ≠ "POST" → ¬r.AsksHealth → response.status = 405

end Request

/-! ## The service -/

section Service

variable {r : Request} {c : Config} {n : Nat} {payload : Bytes} {response : Response}

theorem route_of_post {path : String} (hpath : path.toList.head? = some '/') :
    route "POST" path = .forward := by
  by_cases hhealth : path = "/health"
  · rw [route, if_pos hhealth]
    rfl
  · rw [route, if_neg hhealth, if_pos hpath]
    rfl

theorem route_of_asksHealth (h : r.AsksHealth) : route r.method r.path = .health := by
  rw [route, if_pos h.1, if_pos h.2]

theorem exists_route_eq_notAllowed (hpath : r.path.toList.head? = some '/')
    (hpost : r.method ≠ "POST") (hhealth : ¬r.AsksHealth) :
    ∃ allowed, route r.method r.path = .notAllowed allowed := by
  by_cases hname : r.path = "/health"
  · rw [route, if_pos hname, if_neg fun hmethod => hhealth ⟨hname, hmethod⟩, if_neg hpost]
    exact ⟨_, rfl⟩
  · rw [route, if_neg hname, if_pos hpath, if_neg hpost]
    exact ⟨_, rfl⟩

/-- A POST with a path is forwarded if it has a payload, and refused if it has none. -/
theorem begin_of_post (hpath : r.path.toList.head? = some '/') (hpost : r.method = "POST") :
    (begin c n r).1 = match (r.toPayload c).1 with
      | .ok payload => .forward payload
      | .error f => .respond ((Response.ofFailure f).complete "POST") := by
  unfold begin
  rw [hpost, route_of_post hpath]
  rcases r.toPayload c with ⟨_ | _, events⟩ <;> rfl

/-- Exactly the admitted requests are forwarded. -/
theorem begin_eq_forward_iff (hpath : r.path.toList.head? = some '/') :
    (begin c n r).1 = .forward payload ↔ r.Admitted c payload := by
  by_cases hpost : r.method = "POST"
  · rw [begin_of_post hpath hpost]
    have hadmitted : r.Admitted c payload ↔ (r.toPayload c).1 = .ok payload :=
      ⟨fun h => Request.toPayload_eq_ok_iff.2 h.body,
        fun h => ⟨hpost, Request.toPayload_eq_ok_iff.1 h⟩⟩
    rw [hadmitted]
    cases (r.toPayload c).1 <;> simp
  · refine ⟨fun h => ?_, fun h => absurd h.method hpost⟩
    by_cases hhealth : r.AsksHealth
    · rw [begin, route_of_asksHealth hhealth] at h
      cases h
    · obtain ⟨allowed, hroute⟩ := exists_route_eq_notAllowed hpath hpost hhealth
      rw [begin, hroute] at h
      cases h

/-- What is not forwarded is answered at once. -/
theorem answeredAtOnce_of_respond (hpath : r.path.toList.head? = some '/')
    (h : (begin c n r).1 = .respond response) : r.AnsweredAtOnce response := by
  refine ⟨fun hpost => ?_, fun hhealth => ?_, fun hpost hhealth => ?_⟩
  · rw [begin_of_post hpath hpost] at h
    rcases hpayload : (r.toPayload c).1 with f | payload
    · rw [hpayload] at h
      obtain rfl := Verdict.respond.inj h
      exact ⟨rfl, f, Request.isRefusal_of_toPayload hpayload, rfl⟩
    · rw [hpayload] at h
      cases h
  · rw [begin, route_of_asksHealth hhealth] at h
    obtain rfl := Verdict.respond.inj h
    rfl
  · obtain ⟨allowed, hroute⟩ := exists_route_eq_notAllowed hpath hpost hhealth
    rw [begin, hroute] at h
    obtain rfl := Verdict.respond.inj h
    rfl

end Service

end Http

end FramedRelay
