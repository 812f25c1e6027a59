import FramedRelay.Peer
import FramedRelay.Forwarder
import FramedRelay.Proofs.Exchange.Dialling
import FramedRelay.Proofs.Exchange.Paced

/-!
# The bound on a task

The caller of an exchange is told that forwarding timed out exactly if the exchange ends after the
bound on a task (`forwardBounded_eq_expiry_iff`). That bound has room for dialling one address in
the time there is to connect, yet each address may take as long. So it leaves the outcome of
timely exchanges with `n` addresses as it is exactly if all addresses but one can be dialled
within the grace; and exactly if the time to receive has room for them besides, nothing is sent
after the caller was told (`bound_suffices_iff`). Where there is no room, `overdue` exchanges show
it: some addresses do not answer, and the first that does so takes all the time it has.
-/

namespace FramedRelay

variable {o : Options} {c : Config} {payload : Bytes} {attempts : List Attempt}

/-! ## Exchanges that are over too late -/

/-- No other stage is worded with an f first. -/
theorem ne_forwarding {stage : String} (h : stage.toList.head? ≠ some 'f') (s : String) :
    stage ≠ "forwarding to " ++ s := by
  rintro rfl
  simp at h

/-- No outcome is reported as an exchange that takes too long is. -/
theorem report_ne_expiry (c : Config) (payload : Bytes) (attempts : List Attempt) :
    (Config.report (forward c payload attempts)).1 ≠ .error c.expiry := by
  intro h
  obtain h | (h | ⟨_, h⟩) | (h | ⟨_, h⟩) | (h | ⟨_, h⟩ | ⟨_, _, h⟩) := failure_of_report h
  · cases h
  · exact ne_forwarding (by simp) _ (Failure.timedOut.inj h).symm
  · cases h
  · exact ne_forwarding (by simp) _ (Failure.timedOut.inj h).symm
  · cases h
  · exact ne_forwarding (by simp) _ (Failure.timedOut.inj h).symm
  · cases h
  · cases h

/-- The caller is told the outcome unless the exchange ends after the bound. -/
theorem forwardBounded_eq (h : o.Configured c) (payload : Bytes) (attempts : List Attempt) :
    (forwardBounded c payload attempts).1 =
      if c.bound < (exchange c payload attempts).1.stage.clock then .error c.expiry
      else (Config.report (forward c payload attempts)).1 := by
  simp only [forwardBounded, h.taskTimeout?]
  split <;> rfl

theorem forwardBounded_eq_expiry_iff (h : o.Configured c) :
    (forwardBounded c payload attempts).1 = .error c.expiry ↔
      c.bound < (exchange c payload attempts).1.stage.clock := by
  rw [forwardBounded_eq h]
  split
  · next hlate => exact iff_of_true rfl hlate
  · next hlate => exact iff_of_false (report_ne_expiry c payload attempts) hlate

/-! ## Bytes that are sent -/

namespace Stage

/-- The bytes that the connection has accepted. -/
def written (s : Stage) : Bytes :=
  match s.connection? with
  | some link => link.written
  | none => []

/-- Bytes are only sent while there is time to send. -/
theorem Within.clock_step_le_of_written {s : Stage} {t : Nat} (h : s.Within c t)
    (htime : s.InTime) (hwritten : (s.step c payload).stage.written ≠ s.written) :
    (s.step c payload).stage.clock ≤ t + c.sendTimeout := by
  cases s with
  | dialling clock left last? =>
    obtain ⟨hclock, -⟩ := h
    cases left with
    | nil => exact absurd rfl hwritten
    | cons a left =>
      have hdial : clock + a.delay + dialTime left ≤ t := by
        rw [Nat.add_assoc]
        exact hclock
      revert hwritten
      simp only [Stage.step]
      split
      · intro _
        rw [clock_connect]
        exact Nat.le_trans (Nat.le_of_add_right_le hdial) (Nat.le_add_right _ _)
      · exact fun hwritten => absurd rfl hwritten
  | sending d left link =>
    obtain ⟨hbrisk, hclock, hdue⟩ := h
    have hclock' := (Sending.timed d (c.framing.encode payload).length).clock_step_le hbrisk htime
    rw [Nat.max_eq_left hclock] at hclock'
    rw [clock_step_sending]
    exact Nat.le_trans hclock' hdue
  | receiving d state link =>
    have hsame : (state.step c.maxReplyBytes d link).link.written = link.written :=
      Receiving.keeps_step (I := fun m => m.written = link.written) c.maxReplyBytes d
        (fun m hm => (m.written_ready d .read).trans hm)
        (fun m room hm => (m.written_read room).trans hm) state rfl
    refine absurd ?_ hwritten
    rw [written, connection?_step_receiving]
    exact hsame
  | releasing result link =>
    refine absurd ?_ hwritten
    obtain ⟨done, heq⟩ := link.shutdown_eq
    rw [Stage.step, release_eq, heq]
    rfl
  | ended result clock link? => exact absurd rfl hwritten

end Stage

/-- Bytes are sent to the destination after the caller was told that forwarding timed out. -/
def SentAfterExpiry (c : Config) (payload : Bytes) (attempts : List Attempt) : Prop :=
  (forwardBounded c payload attempts).1 = .error c.expiry ∧
    ∃ k s, ((Exchange.next c)^[k] (.start payload 0 attempts)).stage = s ∧
      (s.step c payload).stage.written ≠ s.written ∧ c.bound < (s.step c payload).stage.clock

/-! ## Where the bound suffices -/

theorem dialTime_le {limit : Nat} (h : ∀ a ∈ attempts, a.delay ≤ limit) :
    dialTime attempts ≤ attempts.length * limit := by
  induction attempts with
  | nil => exact Nat.zero_le _
  | cons a left ih =>
    have hfirst := h a List.mem_cons_self
    have hrest := ih fun b hb => h b (List.mem_cons_of_mem a hb)
    calc a.delay + dialTime left
      _ ≤ limit + left.length * limit := Nat.add_le_add hfirst hrest
      _ = (left.length + 1) * limit := by rw [Nat.succ_mul, Nat.add_comm]

/-- There is time for `n` addresses if the time for one has room for the others. -/
theorem mul_le_add {n limit room : Nat} (h : (n - 1) * limit ≤ room) :
    n * limit ≤ limit + room := by
  cases n with
  | zero =>
    rw [Nat.zero_mul]
    exact Nat.zero_le _
  | succ m =>
    rw [Nat.succ_mul, Nat.add_comm]
    exact Nat.add_le_add_left h limit

namespace Timely

/-- Dialling is over within the time for one address if that has room for the others. -/
theorem dialTime_le {room : Nat} (h : Timely c payload attempts)
    (hroom : (attempts.length - 1) * c.connectTimeout ≤ room) :
    dialTime attempts ≤ c.connectTimeout + room :=
  Nat.le_trans (FramedRelay.dialTime_le h.delays) (mul_le_add hroom)

/-- A timely exchange is over within the bound if the grace has room for all addresses but one. -/
theorem clock_le_bound (h : Timely c payload attempts)
    (hgrace : (attempts.length - 1) * c.connectTimeout ≤ taskGrace) :
    (exchange c payload attempts).1.stage.clock ≤ c.bound :=
  calc (exchange c payload attempts).1.stage.clock
    _ ≤ dialTime attempts + c.sendTimeout + c.receiveTimeout := h.clock_exchange_le
    _ ≤ c.connectTimeout + taskGrace + c.sendTimeout + c.receiveTimeout :=
      Nat.add_le_add_right (Nat.add_le_add_right (h.dialTime_le hgrace) _) _
    _ = c.bound := by
      rw [Config.bound]
      ac_rfl

/-- It sends nothing after the bound if the time to receive and the grace have room for them. -/
theorem not_sentAfterExpiry (h : Timely c payload attempts)
    (hroom : (attempts.length - 1) * c.connectTimeout ≤ c.receiveTimeout + taskGrace) :
    ¬SentAfterExpiry c payload attempts := by
  rintro ⟨-, k, s, rfl, hwritten, hlate⟩
  refine Nat.not_le.2 hlate ?_
  calc (((Exchange.next c)^[k] (.start payload 0 attempts)).stage.step c payload).stage.clock
    _ ≤ dialTime attempts + c.sendTimeout :=
      (h.within k).clock_step_le_of_written (h.inTime k) hwritten
    _ ≤ c.connectTimeout + (c.receiveTimeout + taskGrace) + c.sendTimeout :=
      Nat.add_le_add_right (h.dialTime_le hroom) _
    _ = c.bound := by
      rw [Config.bound]
      ac_rfl

end Timely

/-! ## Where it does not -/

/-- Dialling an address that does not answer. -/
def unanswered (c : Config) : Attempt := Contact.full.attempt c [] { }

/-- Dialling an address that accepts in the last moment, as it takes the frame and replies. -/
def belated (c : Config) : Attempt where
  address := c.destination.display
  delay := c.connectTimeout
  outcome := .ok (pacedLink c.sendTimeout c.receiveTimeout (.ok (c.framing.encode [])))

/-- Some addresses do not answer, and the first that does so is late. -/
def overdue (c : Config) (silent others : Nat) : List Attempt :=
  List.replicate silent (unanswered c) ++ belated c :: List.replicate others (unanswered c)

theorem length_overdue (c : Config) (silent others : Nat) :
    (overdue c silent others).length = silent + others + 1 := by
  simp [overdue, Nat.add_assoc]

theorem timely_overdue (c : Config) (silent others : Nat) (payload : Bytes) :
    Timely c payload (overdue c silent others) := by
  have hmem {a : Attempt} (ha : a ∈ overdue c silent others) :
      a = unanswered c ∨ a = belated c := by
    rcases List.mem_append.1 ha with ha | ha
    · exact Or.inl (List.eq_of_mem_replicate ha)
    · exact (List.mem_cons.1 ha).symm.imp List.eq_of_mem_replicate id
  refine timely_of_scripts (fun a ha => ?_) (fun a ha link hlink => ?_) payload
  · rcases hmem ha with rfl | rfl
    · exact Nat.le_refl _
    · exact Nat.le_refl _
  · rcases hmem ha with rfl | rfl
    · cases hlink
    · obtain rfl := Except.ok.inj hlink
      exact ⟨⟨by simp [pacedLink], by simp [pacedLink]⟩, Nat.le_refl _, Nat.le_refl _⟩

theorem dialTime_replicate (silent : Nat) (a : Attempt) :
    dialTime (List.replicate silent a) = silent * a.delay := by
  induction silent with
  | zero => exact (Nat.zero_mul _).symm
  | succ silent ih => rw [List.replicate_succ, dialTime, ih, Nat.succ_mul, Nat.add_comm]

namespace Exchange

/-- Addresses that do not answer take all the time there is to connect. -/
theorem iterate_next_unanswered (c : Config) (payload : Bytes) (left : List Attempt)
    (silent : Nat) (t : Instant) (last? : Option Fault) : ∃ last?', (next c)^[silent]
      ⟨payload, .dialling t (List.replicate silent (unanswered c) ++ left) last?⟩ =
        ⟨payload, .dialling (t + silent * c.connectTimeout) left last?'⟩ := by
  have hrefused : ∀ a ∈ List.replicate silent (unanswered c), a.Refused := by
    intro a ha
    rw [List.eq_of_mem_replicate ha]
    exact ⟨_, rfl⟩
  obtain ⟨last?', h, -⟩ := iterate_next_refused c payload hrefused left t last?
  rw [List.length_replicate, dialTime_replicate] at h
  exact ⟨last?', h⟩

end Exchange

/-- An empty frame is a whole reply. -/
theorem Receiving.take_encode_nil (framing : Framing) (limit : Nat) (l : Link) :
    ∃ events, (start framing).take limit l (framing.encode []) =
      ⟨.ended (.ok []), l, events⟩ := by
  cases framing with
  | newline => exact ⟨_, rfl⟩
  | lengthPrefixed => exact ⟨_, rfl⟩

section Overdue

variable {silent : Nat} (h : o.Configured c)
  (hclock : silent * c.connectTimeout + c.connectTimeout + c.sendTimeout + c.receiveTimeout <
    clockLimit)

include h hclock

/-- The exchange ends with the reply, when all the time there is has passed. -/
theorem exchange_overdue (payload : Bytes) (others : Nat) :
    ∃ link, (exchange c payload (overdue c silent others)).1 = ⟨payload, .ended (.ok [])
      (silent * c.connectTimeout + c.connectTimeout + c.sendTimeout + c.receiveTimeout)
      (some link)⟩ := by
  obtain ⟨last?, hsilent⟩ := Exchange.iterate_next_unanswered c payload
    (belated c :: List.replicate others (unanswered c)) silent 0 none
  rw [Nat.zero_add] at hsilent
  refine Exchange.run_paced (x := .start payload 0 (overdue c silent others)) hsilent
    h.send.span_pos (Nat.lt_of_le_of_lt (Nat.le_add_right _ _) hclock) hclock fun m hm => ?_
  obtain ⟨b, bs, hframe⟩ := List.exists_cons_of_ne_nil (c.framing.encode_ne_nil [])
  have hroom : (b :: bs).length ≤ (Receiving.start c.framing).room := by
    rw [← hframe]
    cases c.framing <;> decide
  rw [hframe] at hm
  obtain ⟨m', hm', hround⟩ := hm.step_piece
    (d := ⟨silent * c.connectTimeout + c.connectTimeout + c.sendTimeout + c.receiveTimeout,
      "waiting for reply"⟩) (Nat.lt_add_of_pos_right h.receive.span_pos) hroom c.maxReplyBytes
  rw [← hframe] at hround
  obtain ⟨events, htake⟩ := Receiving.take_encode_nil c.framing c.maxReplyBytes m'
  exact ⟨m', events, hm', hround.trans htake⟩

/-- The frame is sent when the time to send has passed. -/
theorem sent_overdue (payload : Bytes) (others : Nat) : ∃ k s,
    ((Exchange.next c)^[k] (.start payload 0 (overdue c silent others))).stage = s ∧
      (s.step c payload).stage.written ≠ s.written ∧ (s.step c payload).stage.clock =
        silent * c.connectTimeout + c.connectTimeout + c.sendTimeout := by
  obtain ⟨last?, hsilent⟩ := Exchange.iterate_next_unanswered c payload
    (belated c :: List.replicate others (unanswered c)) silent 0 none
  rw [Nat.zero_add] at hsilent
  obtain ⟨l, m, hl, hm, hdial, hround⟩ := @Exchange.iterate_next_accepted c payload
    (silent * c.connectTimeout) c.destination.display c.connectTimeout
    (List.replicate others (unanswered c)) last? c.sendTimeout c.receiveTimeout
    (.ok (c.framing.encode [])) h.send.span_pos (Nat.lt_of_le_of_lt (Nat.le_add_right _ _) hclock)
  have hsent : m.written = c.framing.encode payload := by
    have := Sending.step_again hround
    rwa [hl, List.append_nil, List.nil_append] at this
  refine ⟨1 + silent, .sending
    ⟨silent * c.connectTimeout + c.connectTimeout + c.sendTimeout, "sending request"⟩
    (c.framing.encode payload) l, ?_, ?_, ?_⟩
  · rw [Function.iterate_add_apply]
    exact congrArg Exchange.stage ((congrArg ((Exchange.next c)^[1]) hsilent).trans hdial)
  · simp only [Stage.step, hround, Progress.again]
    change m.written ≠ l.written
    rw [hsent, hl]
    exact c.framing.encode_ne_nil payload
  · simp only [Stage.step, hround, Progress.again]
    exact hm.clock

/-- The caller is told that forwarding timed out, if more than the grace was spent on addresses
that do not answer. -/
theorem forwardBounded_overdue (hgrace : taskGrace < silent * c.connectTimeout) (payload : Bytes)
    (others : Nat) : (forwardBounded c payload (overdue c silent others)).1 = .error c.expiry := by
  obtain ⟨link, hrun⟩ := exchange_overdue h hclock payload others
  rw [forwardBounded_eq_expiry_iff h, hrun]
  calc c.bound
    _ = taskGrace + (c.connectTimeout + c.sendTimeout + c.receiveTimeout) := by
      rw [Config.bound, Nat.add_comm]
    _ < silent * c.connectTimeout + (c.connectTimeout + c.sendTimeout + c.receiveTimeout) :=
      Nat.add_lt_add_right hgrace _
    _ = silent * c.connectTimeout + c.connectTimeout + c.sendTimeout + c.receiveTimeout := by
      ac_rfl

/-- If it was more than the time to receive besides, the frame is sent after that. -/
theorem sentAfterExpiry_overdue
    (hroom : c.receiveTimeout + taskGrace < silent * c.connectTimeout) (payload : Bytes)
    (others : Nat) : SentAfterExpiry c payload (overdue c silent others) := by
  refine ⟨forwardBounded_overdue h hclock (Nat.lt_of_le_of_lt (Nat.le_add_left _ _) hroom) payload
    others, ?_⟩
  obtain ⟨k, s, hs, hwritten, hsent⟩ := sent_overdue h hclock payload others
  refine ⟨k, s, hs, hwritten, ?_⟩
  rw [hsent]
  calc c.bound
    _ = c.receiveTimeout + taskGrace + (c.connectTimeout + c.sendTimeout) := by
      rw [Config.bound]
      ac_rfl
    _ < silent * c.connectTimeout + (c.connectTimeout + c.sendTimeout) :=
      Nat.add_lt_add_right hroom _
    _ = silent * c.connectTimeout + c.connectTimeout + c.sendTimeout := (Nat.add_assoc ..).symm

end Overdue

/-- Where all addresses but one take longer than there is room for, some of them do, and the clock
goes on. -/
theorem exists_silent (h : o.Configured c) {n room : Nat} (hroom : room ≤ maxTimeout + taskGrace)
    (hlong : room < (n - 1) * c.connectTimeout) : ∃ silent others, silent + others + 1 = n ∧
      room < silent * c.connectTimeout ∧
      silent * c.connectTimeout + c.connectTimeout + c.sendTimeout + c.receiveTimeout <
        clockLimit := by
  have hpos := h.connect.span_pos
  have hfew : room / c.connectTimeout < n - 1 := (Nat.div_lt_iff_lt_mul hpos).2 hlong
  obtain ⟨others, hn⟩ := Nat.exists_eq_add_of_lt hfew
  refine ⟨room / c.connectTimeout + 1, others, ?_,
    (Nat.div_lt_iff_lt_mul hpos).1 (Nat.lt_succ_self _), ?_⟩
  · have : n - 1 + 1 = n := Nat.sub_one_add_one (by rintro rfl; cases hn)
    rw [Nat.add_right_comm (room / c.connectTimeout), ← hn, this]
  have hspent : (room / c.connectTimeout + 1) * c.connectTimeout ≤
      maxTimeout + taskGrace + maxTimeout := by
    rw [Nat.succ_mul]
    exact Nat.add_le_add (Nat.le_trans (Nat.div_mul_le_self _ _) hroom) h.connect.le_maxTimeout
  have hlimit : maxTimeout + taskGrace + maxTimeout + maxTimeout + maxTimeout + maxTimeout <
      clockLimit := by decide
  exact Nat.lt_of_le_of_lt (Nat.add_le_add (Nat.add_le_add (Nat.add_le_add hspent
    h.connect.le_maxTimeout) h.send.le_maxTimeout) h.receive.le_maxTimeout) hlimit

/-! ## How many addresses there may be -/

/-- The bound leaves the outcome of every timely exchange with `n` addresses as it is exactly if
the grace has room for dialling all of them but one. It lets none of them send anything after the
caller was told that forwarding timed out exactly if the time to receive and the grace do. -/
theorem bound_suffices_iff {o : Options} {c : Config} (h : o.configure = .ok c) (n : Nat) :
    ((∀ payload attempts, attempts.length = n → Timely c payload attempts →
        (forwardBounded c payload attempts).1 =
          (Config.report (forward c payload attempts)).1) ↔
      (n - 1) * c.connectTimeout ≤ taskGrace) ∧
    ((∀ payload attempts, attempts.length = n → Timely c payload attempts →
        ¬SentAfterExpiry c payload attempts) ↔
      (n - 1) * c.connectTimeout ≤ c.receiveTimeout + taskGrace) := by
  have hc := Options.configured h
  refine ⟨⟨fun hall => ?_, fun hgrace => ?_⟩, fun hall => ?_, fun hroom => ?_⟩
  · by_contra hlong
    obtain ⟨silent, others, hn, hspent, hclock⟩ :=
      exists_silent hc (Nat.le_add_left _ _) (Nat.not_le.1 hlong)
    have hsame := hall [] _ ((length_overdue c silent others).trans hn)
      (timely_overdue c silent others [])
    rw [forwardBounded_overdue hc hclock hspent [] others] at hsame
    exact report_ne_expiry c [] _ hsame.symm
  · rintro payload attempts rfl htimely
    rw [forwardBounded_eq hc, if_neg (Nat.not_lt.2 (htimely.clock_le_bound hgrace))]
  · by_contra hlong
    obtain ⟨silent, others, hn, hspent, hclock⟩ := exists_silent hc
      (Nat.add_le_add_right hc.receive.le_maxTimeout _) (Nat.not_le.1 hlong)
    exact hall [] _ ((length_overdue c silent others).trans hn) (timely_overdue c silent others [])
      (sentAfterExpiry_overdue hc hclock hspent [] others)
  · rintro payload attempts rfl htimely
    exact htimely.not_sentAfterExpiry hroom

/-- What a user chooses who leaves one second to connect and hardly any to send and receive. -/
def hastyOptions : Options where
  tcpDestination := some "127.0.0.1:9"
  connectTimeoutMs := 1000
  sendTimeoutMs := 100
  receiveTimeoutMs := 100

def hastyConfig : Config := { defaultConfig with
  destination := .tcp "127.0.0.1:9" [.v4 ⟨127, 0, 0, 1⟩ 9]
  connectTimeout := .ofMillis 1000
  sendTimeout := .ofMillis 100
  receiveTimeout := .ofMillis 100 }

/-- There is just time for two addresses, though the first does not answer. -/
theorem bound_suffices_iff_hastyConfig : hastyOptions.configure = .ok hastyConfig ∧
    (forwardBounded hastyConfig [0x61] (overdue hastyConfig 1 0)).1 =
      (Config.report (forward hastyConfig [0x61] (overdue hastyConfig 1 0))).1 := by
  have hchosen : hastyOptions.configure = .ok hastyConfig := rfl
  exact ⟨hchosen, (bound_suffices_iff hchosen 2).1.2 (by decide) [0x61] _
    (length_overdue hastyConfig 1 0) (timely_overdue hastyConfig 1 0 [0x61])⟩

/-- Of three addresses that do not answer, connecting would say so, but forwarding times out. -/
theorem not_bound_suffices_hastyConfig : hastyOptions.configure = .ok hastyConfig ∧
    Timely hastyConfig [0x70, 0x69, 0x6e, 0x67] (List.replicate 3 (unanswered hastyConfig)) ∧
    forward hastyConfig [0x70, 0x69, 0x6e, 0x67] (List.replicate 3 (unanswered hastyConfig)) =
      .error (.failure (.timedOut "connecting to tcp://127.0.0.1:9")) ∧
    (forwardBounded hastyConfig [0x70, 0x69, 0x6e, 0x67]
      (List.replicate 3 (unanswered hastyConfig))).1 =
      .error (.timedOut "forwarding to tcp://127.0.0.1:9") := by
  have hchosen : hastyOptions.configure = .ok hastyConfig := rfl
  refine ⟨hchosen, timely_of_scripts (fun a ha => ?_) (fun a ha link hlink => ?_) _, ?_, ?_⟩
  · rw [List.eq_of_mem_replicate ha]
    exact Nat.le_refl _
  · rw [List.eq_of_mem_replicate ha] at hlink
    cases hlink
  · exact Exchange.forward_of_iterate_next (k := 4) rfl
  · have hrun := Exchange.iterate_next_eq_run (k := 4) (c := hastyConfig)
      (x := .start [0x70, 0x69, 0x6e, 0x67] 0 (List.replicate 3 (unanswered hastyConfig))) rfl
    refine (forwardBounded_eq_expiry_iff (Options.configured hchosen)).2 ?_
    change hastyConfig.bound < (Exchange.run hastyConfig _).1.stage.clock
    rw [← hrun]
    decide

end FramedRelay
