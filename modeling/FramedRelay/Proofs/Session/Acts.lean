import FramedRelay.Proofs.Forwarder.Exchanges
import FramedRelay.Session
import Mathlib.Data.List.Induction

/-!
# Acts of a session

An `Act` is one thing that is done with a session: a query is put and answered, put and left
waiting, answered at last, or left waiting for too long. Whatever is done, the forwarder goes on
by happenings (`Session.Reaches`), so a query that waits stays with an exchange that goes its way
from the start that its payload and its connection give it (`Session.Carries`).
`Session.faithful_after` is the invariant of all orders of acts: every query that waits is carried
so.
-/

namespace FramedRelay

/-- What is done with a session. -/
inductive Act
  | call (query : Query)
  | start (name : String) (query : Query)
  | finish (name : String)
  | overrun (query : Query)

/-- The payload that is forwarded for a query, if one is. -/
def Query.payload? (c : Config) : Query → Option Bytes
  | .payload bs | .unbounded bs => some bs
  | .request r =>
    match (Http.begin c 0 r).1 with
    | .forward bs => some bs
    | .respond _ => none

namespace Session

variable {s s' : Session} {w : Waiting} {payload : Bytes} {q : Query}

/-- Does one thing. -/
def act (s : Session) : Act → Session × Report
  | .call q => s.call q
  | .start name q => s.start name q
  | .finish name => s.resume name
  | .overrun q => s.overrun q

/-- The session after some acts. -/
def after (s : Session) (acts : List Act) : Session := acts.foldl (fun s a => (s.act a).1) s

/-! ## What becomes of a query -/

/-- Which payload is forwarded does not depend on what is going on. -/
theorem verdict_eq_forward_iff (s : Session) (q : Query) :
    s.verdict q = .forward payload ↔ q.payload? s.forwarder.config = some payload := by
  cases q with
  | payload bs | unbounded bs => simp [verdict, Query.payload?]
  | request r =>
    have hbegin : ∀ n m, (Http.begin s.forwarder.config n r).1 = .forward payload →
        (Http.begin s.forwarder.config m r).1 = .forward payload := by
      intro n m
      unfold Http.begin
      cases Http.route r.method r.path <;> simp
    rw [verdict, Query.payload?]
    constructor
    · intro h
      rw [hbegin _ 0 h]
    · intro h
      refine hbegin 0 _ ?_
      split at h
      · next p hp => rw [hp, Option.some.inj h]
      · cases h

/-! ## What an act goes by -/

/-- One session comes of another by happenings to the forwarder, with the same queries waiting. -/
structure Reaches (s s' : Session) : Prop where
  peer : s'.peer = s.peer
  waiting : s'.waiting = s.waiting
  forwarder : ∃ hs, s'.forwarder = s.forwarder.after hs

namespace Reaches

theorem refl (s : Session) : Reaches s s := ⟨rfl, rfl, [], rfl⟩

theorem trans {s'' : Session} (h : Reaches s s') (h' : Reaches s' s'') : Reaches s s'' := by
  obtain ⟨hs, hhs⟩ := h.forwarder
  obtain ⟨hs', hhs'⟩ := h'.forwarder
  refine ⟨h'.peer.trans h.peer, h'.waiting.trans h.waiting, hs ++ hs', ?_⟩
  rw [hhs', hhs, Forwarder.after_append]

theorem put (s : Session) (payload : Bytes) : Reaches s (s.put payload).1 :=
  ⟨rfl, rfl, [.start payload 0 (s.peer.attempts s.forwarder.config payload s.accepted)], rfl⟩

theorem advance (s : Session) (more : Stage → Bool) (job : Nat) :
    Reaches s (s.advance more job) := by
  obtain ⟨k, hk⟩ := s.forwarder.exists_after_eq_advance more job
  exact ⟨rfl, rfl, _, hk⟩

theorem expire (s : Session) (job : Nat) : Reaches s (s.expire job) :=
  ⟨rfl, rfl, [.expire job], rfl⟩

theorem foldl_expire (s : Session) (jobs : List Nat) :
    Reaches s (jobs.foldl Session.expire s) := by
  induction jobs generalizing s with
  | nil => exact refl s
  | cons job jobs ih => exact (expire s job).trans (ih _)

theorem count (s : Session) (job : Nat) : Reaches s (s.count job) := by
  unfold Session.count
  split <;> exact ⟨rfl, rfl, [], rfl⟩

theorem finish (s : Session) (bounded : Bool) (job : Nat) : Reaches s (s.finish bounded job) := by
  unfold Session.finish
  split
  · exact ((advance _ _ _).trans (expire _ _)).trans (advance _ _ _)
  · exact advance _ _ _

theorem config (h : Reaches s s') : s'.forwarder.config = s.forwarder.config := by
  obtain ⟨hs, hhs⟩ := h.forwarder
  rw [hhs, Forwarder.config_after]

end Reaches

/-! ## Queries that wait -/

/-- The exchange of a query is on its way from the start that its payload and its connection give
it. -/
def Carries (s : Session) (w : Waiting) (payload : Bytes) : Prop :=
  w.query.payload? s.forwarder.config = some payload ∧
    ∃ k, s.forwarder.exchanges[w.job]? = some ((Exchange.next s.forwarder.config)^[k]
      (.start payload 0 (s.peer.attempts s.forwarder.config payload w.connection)))

/-- Every query that waits is carried. -/
def Faithful (s : Session) : Prop := ∀ w ∈ s.waiting, ∃ payload, s.Carries w payload

theorem Carries.reaches (h : s.Carries w payload) (hreaches : Reaches s s') :
    s'.Carries w payload := by
  obtain ⟨hpayload, k, hk⟩ := h
  have hconfig := hreaches.config
  obtain ⟨hs, hhs⟩ := hreaches.forwarder
  have hleft : (s.forwarder.exchanges ++ started hs)[w.job]? = _ :=
    (List.getElem?_append_left (List.getElem?_eq_some_iff.1 hk).1).trans hk
  obtain ⟨k', hk'⟩ := Forwarder.getElem?_exchanges_after hleft
  refine ⟨hconfig ▸ hpayload, k' + k, ?_⟩
  rw [hconfig, hreaches.peer, hhs, hk', Function.iterate_add_apply]

theorem Faithful.reaches (h : s.Faithful) (hreaches : Reaches s s') : s'.Faithful := by
  intro w hw
  obtain ⟨payload, hcarries⟩ := h w (hreaches.waiting ▸ hw)
  exact ⟨payload, hcarries.reaches hreaches⟩

theorem carries_put (hq : s.verdict q = .forward payload) (name : String) :
    (s.put payload).1.Carries ⟨name, q, s.forwarder.jobs.length, s.accepted⟩ payload := by
  refine ⟨(verdict_eq_forward_iff s q).1 hq, 0, ?_⟩
  change (s.forwarder.start payload 0 _).exchanges[s.forwarder.jobs.length]? = _
  rw [Forwarder.exchanges_start, ← Forwarder.length_exchanges, List.getElem?_concat_length]
  rfl

/-! ## Any acts -/

theorem reaches_call (s : Session) (q : Query) : Reaches s (s.call q).1 := by
  unfold call
  split
  · exact .refl s
  · next payload _ => exact ((Reaches.put s payload).trans (.finish _ _ _)).trans (.count _ _)

theorem reaches_overrun (s : Session) (q : Query) : Reaches s (s.overrun q).1 := by
  unfold overrun
  split
  · exact .refl s
  · next payload _ =>
    have hput := (Reaches.put s payload).trans (.advance _ beforeReply s.forwarder.jobs.length)
    exact ((hput.trans (.count _ _)).trans (.foldl_expire _ _)).trans (.advance _ _ _)

theorem Faithful.start (h : s.Faithful) (name : String) (q : Query) :
    (s.start name q).1.Faithful := by
  unfold Session.start
  split
  · exact h
  · next payload hq =>
    have hreaches := (Reaches.advance (s.put payload).1 beforeReply s.forwarder.jobs.length).trans
      (.count _ s.forwarder.jobs.length)
    intro w hw
    rcases List.mem_append.1 hw with hw | hw
    · exact h.reaches ((Reaches.put s payload).trans hreaches) w hw
    · obtain rfl := List.mem_singleton.1 hw
      have hcarries := (carries_put hq name).reaches hreaches
      exact ⟨payload, hcarries⟩

theorem Faithful.resume (h : s.Faithful) (name : String) : (s.resume name).1.Faithful := by
  unfold Session.resume
  split
  · exact h
  · intro v hv
    exact h.reaches (.finish s _ _) v (List.mem_filter.1 hv).1

theorem Faithful.act (h : s.Faithful) (a : Act) : (s.act a).1.Faithful := by
  cases a with
  | call q => exact h.reaches (reaches_call s q)
  | start name q => exact h.start name q
  | finish name => exact h.resume name
  | overrun q => exact h.reaches (reaches_overrun s q)

/-- The forwarder goes on by happenings, whatever is done. -/
theorem forwarder_act (s : Session) (a : Act) :
    (s.act a).1.peer = s.peer ∧ ∃ hs, (s.act a).1.forwarder = s.forwarder.after hs := by
  cases a with
  | call q => exact ⟨(reaches_call s q).peer, (reaches_call s q).forwarder⟩
  | overrun q => exact ⟨(reaches_overrun s q).peer, (reaches_overrun s q).forwarder⟩
  | start name q =>
    rw [act, start]
    split
    · exact ⟨rfl, [], rfl⟩
    · next payload hq =>
      have hreaches := ((Reaches.put s payload).trans
        (.advance _ beforeReply s.forwarder.jobs.length)).trans (.count _ s.forwarder.jobs.length)
      exact ⟨hreaches.peer, hreaches.forwarder⟩
  | finish name =>
    rw [act, resume]
    split
    · exact ⟨rfl, [], rfl⟩
    · next w hw =>
      have hreaches := Reaches.finish s (isBounded w.query) w.job
      exact ⟨hreaches.peer, hreaches.forwarder⟩

/-- Every order of acts is an order of happenings. -/
theorem forwarder_after (c : Config) (peer : Peer) (acts : List Act) :
    ((new c peer).after acts).peer = peer ∧
      ∃ hs, ((new c peer).after acts).forwarder = (Forwarder.new c).after hs := by
  induction acts using List.reverseRecOn with
  | nil => exact ⟨rfl, [], rfl⟩
  | append_singleton acts a ih =>
    obtain ⟨hpeer, hs, hhs⟩ := ih
    obtain ⟨hpeer', hs', hhs'⟩ := forwarder_act ((new c peer).after acts) a
    rw [after, List.foldl_append]
    refine ⟨hpeer'.trans hpeer, hs ++ hs', hhs'.trans ?_⟩
    rw [hhs, Forwarder.after_append]

/-- In every order of acts the queries that wait are carried. -/
theorem faithful_after (c : Config) (peer : Peer) (acts : List Act) :
    ((new c peer).after acts).Faithful := by
  induction acts using List.reverseRecOn with
  | nil =>
    intro w hw
    cases hw
  | append_singleton acts a ih =>
    rw [after, List.foldl_append]
    exact ih.act a

end Session

end FramedRelay
