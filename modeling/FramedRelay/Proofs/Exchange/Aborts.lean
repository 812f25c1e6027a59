import FramedRelay.Proofs.Exchange.Paced
import FramedRelay.Proofs.Frame.Prefixed

/-!
# Exchanges that are abandoned

An outcome is documented if it is a reply or a failure of connecting, sending or receiving. Short
of instants that no clock shows, the only other outcome is that of a reply whose header announces
more bytes than there are buffers for. The limit on replies refuses such a header, unless the
limit itself is beyond all buffers: then the peer decides whether the exchange is abandoned.
`forward_documented_iff` draws this line through the configurations, and `receive_header` through
the headers.
-/

namespace FramedRelay

/-- The outcome is a reply, or a failure of connecting, sending or receiving. -/
def Documented (c : Config) (result : Except Stop Bytes) : Prop :=
  (∃ reply, result = .ok reply) ∨ ∃ f, result = .error (.failure f) ∧
    (f.IsConnecting c.destination ∨ f.IsSending ∨ f.IsReceiving)

/-! ## Headers -/

/-- What comes of a header and the bytes behind it. -/
structure HeaderAnswered (limit : Nat) (header rest : Bytes) (result : Except Stop Bytes) :
    Prop where
  /-- More than the limit is refused. -/
  tooLarge : limit < header.ofLittleEndian →
    result = .error (.failure (.replyTooLarge header.ofLittleEndian limit))
  /-- What the limit admits and a buffer can hold is received. -/
  received : header.ofLittleEndian ≤ limit → header.ofLittleEndian < bufferLimit →
    header.ofLittleEndian ≤ rest.length → result = .ok (rest.take header.ofLittleEndian)
  /-- What the limit admits and no buffer can hold ends the work. -/
  unbuffered : header.ofLittleEndian ≤ limit → bufferLimit ≤ header.ofLittleEndian →
    result = .error (.abort .capacityOverflow)

/-- Every header is refused, received, or the end of the work. -/
theorem receive_header {limit : Nat} {d : Deadline} {l : Link} {header rest : Bytes}
    (hprompt : Receiving.Prompt limit d (.start .lengthPrefixed) l)
    (hheader : header.length = headerSize) (hl : l.arrivals = header ++ rest) :
    HeaderAnswered limit header rest (receive .lengthPrefixed limit d l).1 := by
  have hsize : l.arrivals.announced = header.ofLittleEndian := by
    rw [hl, Bytes.announced_append hheader]
  have hrest : l.arrivals.drop headerSize = rest := by
    rw [hl, List.drop_left' hheader]
  have hlength : l.arrivals.length = headerSize + rest.length := by
    rw [hl, List.length_append, hheader]
  have hcomes := Receiving.prefixed_of_prompt hprompt
  generalize (receive .lengthPrefixed limit d l).1 = result at hcomes ⊢
  cases hcomes with
  | noHeader => omega
  | tooLarge => exact ⟨fun _ => by rw [hsize], by omega, by omega⟩
  | unbuffered => exact ⟨by omega, by omega, fun _ _ => rfl⟩
  | noBody => exact ⟨by omega, by omega, by omega⟩
  | whole => exact ⟨by omega, fun _ _ _ => by rw [hrest, hsize], by omega⟩

/-! ## Documented outcomes -/

section Documented

variable {o : Options} {c : Config} {payload : Bytes} {attempts : List Attempt}

/-- Where every admissible length has a buffer, no exchange is abandoned while the clock goes. -/
theorem documented_forward (h : o.Configured c)
    (hlimit : c.framing = .newline ∨ c.maxReplyBytes < bufferLimit)
    (hclock : (exchange c payload attempts).1.stage.clock + maxTimeout < clockLimit) :
    Documented c (forward c payload attempts) := by
  obtain ⟨hconclusion, hclosed⟩ := conclusion_exchange c payload attempts
  rcases hresult : forward c payload attempts with (f | reason) | reply
  · exact Or.inr ⟨f, rfl, failure_of_forward hresult⟩
  · rw [hresult] at hconclusion
    generalize (exchange c payload attempts).1.stage.connection? = link? at hconclusion hclosed
    cases hconclusion with
    | sent _ _ hreceived =>
      cases hreceived with
      | unbuffered hframing hbuffer =>
        rcases hlimit with hnewline | hlimit
        · simp [hframing] at hnewline
        · exact absurd hbuffer (Nat.not_le.2 hlimit)
    | @unscheduled first last _ hnone =>
      have hshown {span : Span} (hspan : span ≤ maxTimeout) : last.clock.after? span ≠ none := by
        have := Nat.lt_of_le_of_lt (Nat.add_le_add_left hspan _) hclock
        rw [← hclosed last rfl] at this
        simp [Instant.after?_of_lt this]
      rcases hnone with hnone | hnone
      · exact absurd hnone (hshown h.send.le_maxTimeout)
      · exact absurd hnone (hshown h.receive.le_maxTimeout)
  · exact Or.inl ⟨reply, rfl⟩

/-- A peer that accepts a frame and announces `size` bytes. -/
def announcing (size : Nat) : List Attempt :=
  [⟨"", 0, .ok (pacedLink 0 0 (.ok (Bytes.littleEndian headerSize size)))⟩]

theorem Receiving.takeHeader_of_unbuffered {limit : Nat} {header : Bytes}
    (hlimit : header.ofLittleEndian ≤ limit) (hbuffer : bufferLimit ≤ header.ofLittleEndian)
    (l : Link) : takeHeader limit l header = .abort l .capacityOverflow := by
  rw [takeHeader, if_neg (Nat.not_lt.2 hlimit), if_pos hbuffer]

/-- A length that is admitted and has no buffer abandons the exchange, at once. -/
theorem exchange_announcing (h : o.Configured c) (hframing : c.framing = .lengthPrefixed)
    {size : Nat} (hbuffer : bufferLimit ≤ size) (hlimit : size ≤ c.maxReplyBytes)
    (payload : Bytes) : ∃ link, (exchange c payload (announcing size)).1 =
      ⟨payload, .ended (.error (.abort .capacityOverflow)) 0 (some link)⟩ := by
  have hlength := Bytes.length_littleEndian headerSize size
  have hsize : (Bytes.littleEndian headerSize size).ofLittleEndian = size := by
    refine Bytes.ofLittleEndian_littleEndian (Nat.lt_of_le_of_lt hlimit ?_)
    rw [h.maxReplyBytes.1]
    exact o.maxReplyBytes.toNat_lt
  have hshown {span : Span} (hspan : span ≤ maxTimeout) : 0 + span < clockLimit := by
    rw [Nat.zero_add]
    exact Nat.lt_of_le_of_lt hspan (by decide)
  refine Exchange.run_paced (x := .start payload 0 (announcing size)) (j := 0) rfl h.send.span_pos
    (hshown h.send.le_maxTimeout) (hshown h.receive.le_maxTimeout) fun m hm => ?_
  generalize Bytes.littleEndian headerSize size = header at hlength hsize hm
  cases header with
  | nil => cases hlength
  | cons b bs =>
    rw [hframing]
    obtain ⟨m', hclock, hround⟩ := hm.step_piece
      (d := ⟨0 + 0 + 0 + c.receiveTimeout, "waiting for reply"⟩) (s := .header [])
      (Nat.lt_add_of_pos_right h.receive.span_pos) (Nat.le_of_eq hlength) c.maxReplyBytes
    refine ⟨m', [], hclock, hround.trans ?_⟩
    have hwhole : ¬(b :: bs).length < headerSize := hlength ▸ Nat.lt_irrefl _
    simp only [Receiving.take, List.nil_append, if_neg hwhole]
    exact Receiving.takeHeader_of_unbuffered (hsize ▸ hlimit) (hsize ▸ hbuffer) m'

/-- So it has an outcome that is not documented. -/
theorem forward_announcing (h : o.Configured c) (hframing : c.framing = .lengthPrefixed)
    (hlimit : bufferLimit ≤ c.maxReplyBytes) (payload : Bytes) :
    (exchange c payload (announcing bufferLimit)).1.stage.clock = 0 ∧
      ¬Documented c (forward c payload (announcing bufferLimit)) := by
  obtain ⟨link, hrun⟩ := exchange_announcing h hframing (Nat.le_refl _) hlimit payload
  have hresult : forward c payload (announcing bufferLimit) =
      .error (.abort .capacityOverflow) := Exchange.forward_of_ended (by rw [hrun]; rfl)
  refine ⟨by rw [hrun]; rfl, ?_⟩
  rw [hresult]
  simp [Documented]

end Documented

/-- The outcome of every exchange is documented, as long as the clock goes, exactly if every
length that the limit admits has a buffer; and every header is refused if it announces more than
the limit, and received if there is a buffer for it. -/
theorem forward_documented_iff {o : Options} {c : Config} (h : o.configure = .ok c) :
    ((∀ payload attempts,
        (exchange c payload attempts).1.stage.clock + maxTimeout < clockLimit →
          Documented c (forward c payload attempts)) ↔
      c.framing = .newline ∨ c.maxReplyBytes < bufferLimit) ∧
    ∀ d l header rest, Receiving.Prompt c.maxReplyBytes d (.start .lengthPrefixed) l →
      header.length = headerSize → l.arrivals = header ++ rest →
        HeaderAnswered c.maxReplyBytes header rest
          (receive .lengthPrefixed c.maxReplyBytes d l).1 := by
  have hc := Options.configured h
  refine ⟨⟨fun hall => ?_, fun hlimit _ _ => documented_forward hc hlimit⟩,
    fun _ _ _ _ => receive_header⟩
  by_contra hlimit
  rw [not_or, Nat.not_lt] at hlimit
  have hframing : c.framing = .lengthPrefixed := by
    cases hframing : c.framing with
    | newline => exact absurd hframing hlimit.1
    | lengthPrefixed => rfl
  obtain ⟨hclock, hdocumented⟩ := forward_announcing hc hframing hlimit.2 []
  exact hdocumented (hall [] _ (by rw [hclock]; decide))

/-- The configuration of a user who chooses length headers and nothing else. -/
def prefixedConfig : Config := { defaultConfig with framing := .lengthPrefixed }

/-- There, a header that announces more than any buffer holds is answered. -/
theorem forward_documented_iff_prefixedConfig :
    ({ framing := .lengthPrefixed } : Options).configure = .ok prefixedConfig ∧
      Documented prefixedConfig (forward prefixedConfig [] (announcing bufferLimit)) := by
  have hchosen : ({ framing := .lengthPrefixed } : Options).configure = .ok prefixedConfig := rfl
  have hrun := Exchange.iterate_next_eq_run (k := 6) (c := prefixedConfig)
    (x := .start [] 0 (announcing bufferLimit)) rfl
  have hclock : (exchange prefixedConfig [] (announcing bufferLimit)).1.stage.clock = 0 :=
    congrArg (fun x => x.stage.clock) hrun.symm
  exact ⟨hchosen, (forward_documented_iff hchosen).1.2 (Or.inr (by decide)) [] _
    (by rw [hclock]; decide)⟩

/-- The configuration of a user who chooses length headers and admits replies up to the first
length without a buffer. -/
def unboundedConfig : Config := { prefixedConfig with maxReplyBytes := 9223372036854775808 }

/-- There, the same header abandons the exchange. -/
theorem not_documented_unboundedConfig :
    ({ framing := .lengthPrefixed, maxReplyBytes := 9223372036854775808 } : Options).configure =
        .ok unboundedConfig ∧
      ¬Documented unboundedConfig (forward unboundedConfig [] (announcing bufferLimit)) := by
  have hchosen : ({ framing := .lengthPrefixed, maxReplyBytes := 9223372036854775808 } :
      Options).configure = .ok unboundedConfig := rfl
  exact ⟨hchosen, (forward_announcing (Options.configured hchosen) rfl (Nat.le_refl _) []).2⟩

end FramedRelay
