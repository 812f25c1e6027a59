import FramedRelay.Proofs.Configuration
import FramedRelay.Proofs.Exchange.Connections
import FramedRelay.Proofs.Exchange.Timely
import FramedRelay.Proofs.Forwarder.Exchanges

/-!
# The order of dialling

What an exchange dials is read off its stages (`Stage.dials?`, `Exchange.dialled`), and what comes
of it is reported (`Destination.attemptEvents`). Addresses that do not accept are dialled one after
another and leave the rest as it was (`Exchange.iterate_next_refused`), and once nothing is left to
dial, nothing is dialled again (`Exchange.dialled_eq_nil`). So an exchange goes on at the first address that accepts, whatever
other addresses come after it (`Exchange.Connects`), or has dialled all of them once and fails with
the fault of the last (`Exchange.Fails`): `addresses_in_order`.
-/

namespace FramedRelay

namespace Attempt

/-- The address does not accept. -/
def Refused (a : Attempt) : Prop := ∃ f, a.outcome = .error f

theorem accepted?_of_refused {attempts : List Attempt} (h : ∀ b ∈ attempts, b.Refused) :
    accepted? attempts = none := by
  rw [accepted?, List.findSome?_eq_none_iff]
  intro b hb
  obtain ⟨f, hf⟩ := h b hb
  rw [hf]
  rfl

/-- Some address accepts and none before it does, or none accepts. -/
theorem accepts_or_refused (attempts : List Attempt) :
    (∃ before a after link, attempts = before ++ a :: after ∧ (∀ b ∈ before, b.Refused) ∧
      a.outcome = .ok link) ∨ ∀ a ∈ attempts, a.Refused := by
  induction attempts with
  | nil => exact Or.inr (List.forall_mem_nil _)
  | cons first attempts ih =>
    cases hfirst : first.outcome with
    | ok link => exact Or.inl ⟨[], first, attempts, link, rfl, List.forall_mem_nil _, hfirst⟩
    | error f =>
      have hrefused : first.Refused := ⟨f, hfirst⟩
      refine ih.imp ?_ fun hall => List.forall_mem_cons.2 ⟨hrefused, hall⟩
      rintro ⟨before, a, after, link, rfl, hbefore, ha⟩
      exact ⟨first :: before, a, after, link, rfl, List.forall_mem_cons.2 ⟨hrefused, hbefore⟩, ha⟩

end Attempt

/-- The address that the next step dials, if it dials one. -/
def Stage.dials? : Stage → Option Attempt
  | dialling _ (a :: _) _ => some a
  | dialling _ [] _ | sending .. | receiving .. | releasing .. | ended .. => none

theorem Stage.dials?_of_link? {s : Stage} {link : Link} (h : s.link? = some link) :
    s.dials? = none := by
  cases s with
  | dialling => cases h
  | ended => cases h
  | sending | receiving | releasing => rfl

/-- Once no address is dialled, none is dialled again. -/
theorem Stage.Passage.dials? {s s' : Stage} {e : Effect} (h : Passage s e s')
    (hs : s.dials? = none) : s'.dials? = none := by
  cases h with
  | refused => cases hs
  | exhausted => rfl
  | accepted => cases hs
  | worked s s' link link' hlink hlink' h => exact dials?_of_link? hlink'
  | closed => rfl
  | finished => rfl

/-- A step that leads to no connection neither opens nor releases one. -/
theorem Stage.Passage.effect_eq_none {s s' : Stage} {e : Effect} (h : Passage s e s')
    (hs' : s'.connection? = none) : e = .none := by
  cases h with
  | refused => rfl
  | exhausted => rfl
  | accepted clock a left last? link s h hlink =>
    rw [connection?_of_link? hlink] at hs'
    cases hs'
  | worked => rfl
  | closed => cases hs'
  | finished => rfl

theorem Stage.link?_connect (c : Config) (payload : Bytes) (link : Link) :
    (connect c payload link).stage.link? = some link := by
  unfold connect
  split <;> rfl

theorem dialTime_append (before left : List Attempt) :
    dialTime (before ++ left) = dialTime before + dialTime left := by
  induction before with
  | nil => exact (Nat.zero_add _).symm
  | cons a before ih =>
    rw [List.cons_append, dialTime, dialTime, ih, Nat.add_assoc]

/-- Connecting that did not finish in time is told from connecting that failed. -/
theorem Destination.connectFailure_eq (d : Destination) (f : Fault) : d.connectFailure f =
    if f.kind = .timedOut ∨ f.kind = .wouldBlock then .timedOut ("connecting to " ++ d.display)
    else .connectFailed f.text := by
  simp [connectFailure, Fault.isTimeout, or_comm]

/-- What there is to report about dialling an address. -/
def Destination.attemptEvents (d : Destination) (a : Attempt) : List Event :=
  match a.outcome with
  | .ok _ => [.connected d.display]
  | .error f => d.addressEvents a f

namespace Exchange

variable {c : Config} {x : Exchange} {payload : Bytes} {t : Instant} {before left : List Attempt}
  {a : Attempt} {last? : Option Fault} {f : Fault} {link : Link}

/-- The addresses that the first steps dial, in the order of dialling. -/
def dialled (c : Config) (x : Exchange) : Nat → List Attempt
  | 0 => []
  | k + 1 => x.stage.dials?.toList ++ (x.next c).dialled c k

/-! ## One address after another -/

theorem next_refused (h : a.outcome = .error f) :
    next c ⟨payload, .dialling t (a :: left) last?⟩ =
      ⟨payload, .dialling (t + a.delay) left (some f)⟩ := by
  simp only [next, step, Stage.step, h]

theorem next_accepted (h : a.outcome = .ok link) :
    next c ⟨payload, .dialling t (a :: left) last?⟩ =
      ⟨payload, (Stage.connect c payload { link with clock := t + a.delay }).stage⟩ := by
  simp only [next, step, Stage.step, h]

theorem reported_of_none (h : x.stage.result? = none) : (x.run c).2 =
    (x.stage.step c x.payload).events ++ ((x.next c).run c).2 :=
  congrArg (fun r => r.2.1) (Stage.advance_of_none c x.payload h rfl)

theorem reported_of_ended {result : Except Stop Bytes} (h : x.stage.result? = some result) :
    (x.run c).2 = [] :=
  congrArg (fun r => r.2.1) (Stage.advance_of_ended c x.payload (fun _ => true) h)

/-- Addresses that do not accept only take their time, and are reported. -/
theorem iterate_next_refused (c : Config) (payload : Bytes) (h : ∀ b ∈ before, b.Refused)
    (left : List Attempt) (t : Instant) (last? : Option Fault) : ∃ last?',
      (next c)^[before.length] ⟨payload, .dialling t (before ++ left) last?⟩ =
        ⟨payload, .dialling (t + dialTime before) left last?'⟩ ∧
      (run c ⟨payload, .dialling t (before ++ left) last?⟩).2 =
        before.flatMap c.destination.attemptEvents ++
          (run c ⟨payload, .dialling (t + dialTime before) left last?'⟩).2 := by
  induction before generalizing t last? with
  | nil => exact ⟨last?, rfl, rfl⟩
  | cons b before ih =>
    obtain ⟨f, hf⟩ := h b List.mem_cons_self
    obtain ⟨last?', hlast, hreported⟩ := ih (fun b' hb' => h b' (List.mem_cons_of_mem b hb'))
      (t + b.delay) (some f)
    refine ⟨last?', ?_, ?_⟩
    · rw [List.cons_append, List.length_cons, Function.iterate_succ_apply, next_refused hf, hlast,
        dialTime, Nat.add_assoc]
    · rw [List.cons_append, reported_of_none rfl, next_refused hf, hreported, dialTime,
        Nat.add_assoc]
      simp [Stage.step, hf, Destination.attemptEvents]

theorem reported_accepted (h : a.outcome = .ok link) (t : Instant) (last? : Option Fault) :
    (run c ⟨payload, .dialling t (a :: left) last?⟩).2 = c.destination.attemptEvents a ++
      (run c ⟨payload,
        (Stage.connect c payload { link with clock := t + a.delay }).stage⟩).2 := by
  rw [reported_of_none rfl, next_accepted h]
  simp only [Stage.step, h, Destination.attemptEvents, Stage.connect]
  split <;> rfl

/-! ## What is dialled -/

theorem dialled_eq_nil (h : x.stage.dials? = none) (k : Nat) : x.dialled c k = [] := by
  induction k generalizing x with
  | zero => rfl
  | succ k ih =>
    have hnext : (x.next c).stage.dials? = none :=
      (Stage.passage_step c x.payload x.stage).dials? h
    rw [dialled, h, ih hnext]
    rfl

/-- Addresses that do not accept are dialled before what is dialled without them. -/
theorem dialled_refused (h : ∀ b ∈ before, b.Refused) {rest : List Attempt}
    (hrest : ∀ t last? k, dialled c ⟨payload, .dialling t left last?⟩ k = rest.take k) (t : Instant)
    (last? : Option Fault) (k : Nat) :
    dialled c ⟨payload, .dialling t (before ++ left) last?⟩ k = (before ++ rest).take k := by
  induction before generalizing t last? k with
  | nil => exact hrest t last? k
  | cons b before ih =>
    obtain ⟨f, hf⟩ := h b List.mem_cons_self
    cases k with
    | zero => rfl
    | succ k =>
      -- this step dials the first of them, and the others follow
      have hnext := ih (fun b' hb' => h b' (List.mem_cons_of_mem b hb')) (t + b.delay) (some f) k
      rw [dialled, List.cons_append, next_refused hf, hnext]
      rfl

/-- Where an address accepts, none is dialled after it. -/
theorem dialled_accepted (h : a.outcome = .ok link) (t : Instant) (last? : Option Fault)
    (k : Nat) : dialled c ⟨payload, .dialling t (a :: left) last?⟩ k = [a].take k := by
  cases k with
  | zero => rfl
  | succ k =>
    have hnext := Stage.dials?_of_link?
      (Stage.link?_connect c payload { link with clock := t + a.delay })
    rw [dialled, next_accepted h, dialled_eq_nil hnext, List.take_succ_cons, List.take_nil]
    rfl

/-! ## The first address that accepts, or the last that does not -/

/-- The exchange dials some addresses that do not accept and then one that does, and no other. -/
structure Connects (c : Config) (x : Exchange) (before : List Attempt) (a : Attempt)
    (link : Link) : Prop where
  refused : ∀ b ∈ before, b.Refused
  accepted : a.outcome = .ok link
  dialled : ∀ k, x.dialled c k = (before ++ [a]).take k
  /-- It goes on with the connection at that address. -/
  connection : ((next c)^[before.length + 1] x).stage.link? =
    some { link with clock := x.stage.clock + dialTime (before ++ [a]) }
  /-- What is reported first is what those addresses came to. -/
  reported : ∃ later, (x.run c).2 =
    (before ++ [a]).flatMap c.destination.attemptEvents ++ later
  /-- It goes on, to the end, as it would if no other address had been left. -/
  alone : x.run c = (start x.payload x.stage.clock (before ++ [a])).run c

/-- The exchange dials all addresses, and none accepts; the last is at fault. -/
structure Fails (c : Config) (x : Exchange) (attempts : List Attempt) (f : Fault) : Prop where
  refused : ∀ a ∈ attempts, a.Refused
  dialled : ∀ k, x.dialled c k = attempts.take k
  reported : (x.run c).2 = attempts.flatMap c.destination.attemptEvents
  outcome : x.stage.outcome c x.payload = .error (.failure
    (if f.kind = .timedOut ∨ f.kind = .wouldBlock then
      .timedOut ("connecting to " ++ c.destination.display)
    else .connectFailed f.text))
  /-- There is no connection at any time that anything could be sent over. -/
  unsent : ∀ k, ((next c)^[k] x).stage.connection? = none
  /-- Whatever else happens to a forwarder, the steps of the exchange leave the number of open
  connections as it is. -/
  uncounted : ∀ hs i, (started hs)[i]? = some x →
    (((Forwarder.new c).after hs).step i).1.openConnections =
      ((Forwarder.new c).after hs).openConnections

theorem iterate_next_accepted_after (c : Config) (payload : Bytes)
    (h : ∀ b ∈ before, b.Refused) (ha : a.outcome = .ok link) (left : List Attempt) (t : Instant)
    (last? : Option Fault) :
    (next c)^[before.length + 1] ⟨payload, .dialling t (before ++ a :: left) last?⟩ =
      ⟨payload, (Stage.connect c payload
        { link with clock := t + dialTime (before ++ [a]) }).stage⟩ := by
  obtain ⟨last?', hbefore, -⟩ := iterate_next_refused c payload h (a :: left) t last?
  rw [Function.iterate_succ_apply', hbefore, next_accepted ha, dialTime_append, ← Nat.add_assoc]
  rfl

/-- Past the address that accepts, the run is that of the connection there. -/
theorem run_accepted_after (c : Config) (payload : Bytes) (h : ∀ b ∈ before, b.Refused)
    (ha : a.outcome = .ok link) (after : List Attempt) (clock : Instant) (x : Exchange)
    (hx : x = ⟨payload, (Stage.connect c payload
      { link with clock := clock + dialTime (before ++ [a]) }).stage⟩) :
    (start payload clock (before ++ a :: after)).run c =
      ((x.run c).1, (before ++ [a]).flatMap c.destination.attemptEvents ++ (x.run c).2) := by
  refine Prod.ext ?_ ?_
  · rw [hx, ← iterate_next_accepted_after c payload h ha after clock none, run_iterate_next, start]
  · obtain ⟨last?', -, hreported⟩ := iterate_next_refused c payload h (a :: after) clock none
    rw [start, hreported, reported_accepted ha, List.flatMap_append, List.append_assoc,
      List.flatMap_singleton, hx, dialTime_append, ← Nat.add_assoc]
    rfl

theorem connects (c : Config) (payload : Bytes) (h : ∀ b ∈ before, b.Refused)
    (ha : a.outcome = .ok link) (after : List Attempt) (clock : Instant) :
    (start payload clock (before ++ a :: after)).Connects c before a link where
  refused := h
  accepted := ha
  dialled := dialled_refused h (dialled_accepted ha) clock none
  connection := by
    rw [start, iterate_next_accepted_after c payload h ha]
    exact Stage.link?_connect c payload _
  reported := ⟨_, congrArg Prod.snd (run_accepted_after c payload h ha after clock _ rfl)⟩
  alone := (run_accepted_after c payload h ha after clock _ rfl).trans
    (run_accepted_after c payload h ha [] clock _ rfl).symm

/-- The last fault is the one that the exchange ends with. -/
theorem iterate_next_exhausted (c : Config) (payload : Bytes) (h : ∀ b ∈ before, b.Refused)
    (ha : a.outcome = .error f) (t : Instant) (last? : Option Fault) :
    (next c)^[before.length + 1 + 1] ⟨payload, .dialling t (before ++ [a]) last?⟩ =
      ⟨payload, .ended (.error (.failure (c.destination.connectFailure f)))
        (t + dialTime (before ++ [a])) none⟩ := by
  obtain ⟨last?', hbefore, -⟩ := iterate_next_refused c payload h [a] t last?
  rw [Function.iterate_succ_apply', Function.iterate_succ_apply', hbefore, next_refused ha,
    dialTime_append, ← Nat.add_assoc]
  rfl

theorem uncounted_of_unsent (h : ∀ k, ((next c)^[k] x).stage.connection? = none)
    {hs : List Happening} {i : Nat} (hx : (started hs)[i]? = some x) :
    (((Forwarder.new c).after hs).step i).1.openConnections =
      ((Forwarder.new c).after hs).openConnections := by
  cases hjob : ((Forwarder.new c).after hs).jobs[i]? with
  | none => rw [Forwarder.step_of_none hjob]
  | some job =>
    obtain ⟨x', k, hx', hk⟩ := Forwarder.exists_iterate_next (Forwarder.getElem?_exchanges hjob)
    obtain rfl := Option.some.inj (hx.symm.trans hx')
    have heffect : (job.exchange.step c).2.2 = .none := by
      refine (Stage.passage_step c job.exchange.payload job.exchange.stage).effect_eq_none ?_
      have hnext := h (k + 1)
      rwa [Function.iterate_succ_apply', ← hk] at hnext
    rw [Forwarder.step_of_some hjob, Forwarder.config_after]
    change Effect.apply (job.exchange.step c).2.2 _ = _
    rw [heffect]
    rfl

theorem fails (c : Config) (payload : Bytes) (h : ∀ b ∈ before ++ [a], b.Refused)
    (ha : a.outcome = .error f) (clock : Instant) :
    (start payload clock (before ++ [a])).Fails c (before ++ [a]) f := by
  have hunsent (k : Nat) :
      ((next c)^[k] (start payload clock (before ++ [a]))).stage.connection? = none :=
    (Attempt.accepted?_of_refused h ▸
      Stage.stemsFrom_iterate_next c payload clock (before ++ [a]) k).connection?_eq_none
  refine ⟨h, fun k => ?_, ?_, ?_, hunsent, fun hs i => uncounted_of_unsent hunsent⟩
  · have hnone (t : Instant) (last? : Option Fault) (k : Nat) :
        dialled c ⟨payload, .dialling t [] last?⟩ k = List.take k [] :=
      (dialled_eq_nil rfl k).trans List.take_nil.symm
    have hall := dialled_refused h hnone clock none k
    rwa [List.append_nil] at hall
  · obtain ⟨last?', -, hreported⟩ := iterate_next_refused c payload h [] clock none
    have hend : (run c ⟨payload, .dialling (clock + dialTime (before ++ [a])) [] last?'⟩).2 = [] := by
      rw [reported_of_none rfl, reported_of_ended rfl]
      rfl
    rw [List.append_nil, hend, List.append_nil] at hreported
    exact hreported
  · have hbefore : ∀ b ∈ before, b.Refused := fun b hb => h b (List.mem_append_left [a] hb)
    have hend := iterate_next_exhausted c payload hbefore ha clock none
    rw [← c.destination.connectFailure_eq]
    exact outcome_of_iterate_next (congrArg (fun x => x.stage.result?) hend)

end Exchange

/-- Addresses are dialled in order, each once, up to the first that accepts. If none does, the
exchange fails with the fault of the last, and no connection was ever there. -/
theorem addresses_in_order (c : Config) (payload : Bytes) (clock : Instant)
    {attempts : List Attempt} (h : attempts ≠ []) :
    (∃ before a after link, attempts = before ++ a :: after ∧
      (Exchange.start payload clock attempts).Connects c before a link) ∨
    ∃ a f, attempts.getLast? = some a ∧ a.outcome = .error f ∧
      (Exchange.start payload clock attempts).Fails c attempts f := by
  rcases Attempt.accepts_or_refused attempts with
    ⟨before, a, after, link, rfl, hbefore, ha⟩ | hrefused
  · exact Or.inl ⟨before, a, after, link, rfl, Exchange.connects c payload hbefore ha after clock⟩
  · obtain ⟨before, a, rfl⟩ := (List.eq_nil_or_concat' attempts).resolve_left h
    obtain ⟨f, hf⟩ := hrefused a (List.mem_append_right before List.mem_cons_self)
    exact Or.inr ⟨a, f, List.getLast?_concat, hf, Exchange.fails c payload hrefused hf clock⟩

/-- Two addresses, of which the first does not answer and the second refuses. -/
def deafAddresses : List Attempt :=
  [⟨"[::1]:9", 5, .error (.ofKind .timedOut)⟩, ⟨"127.0.0.1:9", 0, .error (.ofSystem 111)⟩]

/-- Both are dialled, and the refusal is what is told of it. -/
theorem addresses_in_order_deafAddresses :
    (Exchange.start [0x68] 0 deafAddresses).Fails defaultConfig deafAddresses (.ofSystem 111) ∧
      forward defaultConfig [0x68] deafAddresses =
        .error (.failure (.connectFailed "Connection refused (os error 111)")) := by
  have hnonempty : deafAddresses ≠ [] := List.cons_ne_nil _ _
  obtain ⟨before, a, after, link, hsplit, h⟩ | ⟨a, f, hlast, hf, h⟩ :=
    addresses_in_order defaultConfig [0x68] 0 hnonempty
  · have hrefused : ∀ b ∈ deafAddresses, b.Refused := List.forall_mem_cons.2
      ⟨⟨_, rfl⟩, List.forall_mem_cons.2 ⟨⟨_, rfl⟩, List.forall_mem_nil _⟩⟩
    obtain ⟨f, hf⟩ := hrefused a (hsplit ▸ List.mem_append_right before List.mem_cons_self)
    cases h.accepted.symm.trans hf
  · obtain rfl := Option.some.inj hlast
    obtain rfl := Except.error.inj hf
    exact ⟨h, h.outcome⟩

end FramedRelay
