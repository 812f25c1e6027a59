import FramedRelay.Proofs.Frame.Line
import FramedRelay.Proofs.Frame.Prefixed
import Mathlib.Data.List.DropRight

/-!
# What a peer cannot exceed

Whatever the script of a link, a call takes no more off it than the limit admits and one piece, or
the header and what the limit admits; at no time does it hold more of a reply than the limit
admits; and there is a buffer for the body only after the number in the header was found to be
within the limit. A reply is within the limit, and under newline framing it is a line that does
not end in a blank. `receive_bounded` puts this together.

The states that rounds lead to are `Receiving.Sound`, which bounds what is held, and the last round
adds no more than its read has room for. What a reply is follows from how the last round ends.
-/

namespace FramedRelay

namespace Bytes

theorem trimEnd_prefix (bs : Bytes) : bs.trimEnd <+: bs :=
  List.rdropWhile_prefix isBlank bs

/-- Bytes without the blanks at their end do not end in one. -/
theorem not_isBlank_of_getLast?_trimEnd (bs : Bytes) :
    ∀ b ∈ bs.trimEnd.getLast?, isBlank b = false := by
  intro b hb
  have h := List.head?_dropWhile_not isBlank bs.reverse
  rw [trimEnd, List.getLast?_reverse, Option.mem_def] at hb
  simpa [hb] using h

theorem lineFeed_notMem_line (bs : Bytes) : lineFeed ∉ bs.line := fun h => by
  simpa using List.mem_takeWhile_imp h

end Bytes

namespace Receiving

variable {framing : Framing} {limit : Nat} {d : Deadline} {s : Receiving} {l l' : Link}
  {events : List Event} {result : Except Stop Bytes}

/-- The bytes of the reply that have come. -/
def reply : Receiving → Bytes
  | .line reply => reply
  | .header _ => []
  | .body _ got => got

/-! ## States -/

theorem Sound.length_reply_le (hs : Sound limit framing s) : s.reply.length ≤ limit := by
  cases framing <;> cases s
  · exact hs.1
  · exact hs.elim
  · exact hs.elim
  · exact hs.elim
  · exact Nat.zero_le limit
  · exact hs.2.2.le.trans hs.1

/-- What has been taken and what the next read has room for. -/
theorem Sound.length_taken_add_room_le (hs : Sound limit framing s) :
    (framing = .newline → s.taken.length + s.room ≤ limit + pieceSize) ∧
      (framing = .lengthPrefixed → s.taken.length + s.room ≤ headerSize + limit) := by
  cases framing <;> cases s
  · exact ⟨fun _ => Nat.add_le_add_right hs.1 _, nofun⟩
  · exact hs.elim
  · exact hs.elim
  · exact hs.elim
  · next got =>
    have hgot : got.length < headerSize := hs
    exact ⟨nofun, fun _ => by simp only [taken, room]; omega⟩
  · next size got =>
    obtain ⟨hlimit, -, hgot⟩ := hs
    refine ⟨nofun, fun _ => ?_⟩
    rw [taken, List.length_append, Bytes.length_littleEndian, room]
    omega

/-- There is a buffer for the body once the header has announced a size within the limit. -/
theorem Sound.announced_of_body {size : Nat} {got rest : Bytes}
    (hs : Sound limit framing (.body size got)) :
    headerSize ≤ ((body size got).taken ++ rest).length ∧
      ((body size got).taken ++ rest).announced = size ∧ size ≤ limit := by
  cases framing with
  | newline => exact hs.elim
  | lengthPrefixed =>
    have hheader := Bytes.length_littleEndian headerSize size
    refine ⟨?_, ?_, hs.1⟩
    · rw [taken, List.append_assoc, List.length_append, hheader]
      exact Nat.le_add_right _ _
    · rw [taken, List.append_assoc, Bytes.announced_append hheader, ofLittleEndian_header hs.2.1]

/-! ## The last round -/

/-- A round that does not come to read fails. -/
theorem failure_or_ends (hs : Sound limit framing s)
    (h : step limit d s l = ⟨.ended result, l', events⟩) :
    (∃ failure, result = .error (.failure failure)) ∨ Ends limit d s l result l' := by
  rcases hready : l.ready d .read with ⟨failure | ⟨⟩, m⟩
  · simp only [step, hready, Progress.fail, Progress.mk.injEq, Round.ended.injEq] at h
    exact Or.inl ⟨failure, h.1.symm⟩
  · exact Or.inr (step_ended hs (congrArg Prod.fst hready) h).2

/-- A reply is within the limit; one that is a line has no line feed and no blank at its end. -/
theorem reply_of_ends {reply : Bytes} (hs : Sound limit framing s)
    (h : Ends limit d s l (.ok reply) l') : reply.length ≤ limit ∧
      (framing = .newline → lineFeed ∉ reply ∧ ∀ b ∈ reply.getLast?, Bytes.isBlank b = false) := by
  cases framing <;> cases s
  · next got =>
    rcases ends_line hs h with ⟨_, _, _, hresult⟩ | ⟨hlength, _, hresult⟩ | ⟨_, _, _, _, hresult⟩
    · cases hresult
    · obtain rfl := Except.ok.inj hresult
      have hfront := (got ++ l.arrivals).line.trimEnd_prefix
      refine ⟨hfront.length_le.trans hlength, fun _ => ⟨fun hmem => ?_, ?_⟩⟩
      · exact Bytes.lineFeed_notMem_line _ (hfront.subset hmem)
      · exact Bytes.not_isBlank_of_getLast?_trimEnd _
    · cases hresult
  · exact hs.elim
  · exact hs.elim
  · exact hs.elim
  · refine ⟨?_, nofun⟩
    rcases ends_header hs h with ⟨-, hshort⟩ | ⟨-, -, -, events, htake⟩
    · cases hshort.result_eq
    · rcases takeHeader_ended htake with ⟨-, hresult⟩ | ⟨-, -, hresult⟩ | ⟨-, hresult⟩
      · cases hresult
      · cases hresult
      · obtain rfl := Except.ok.inj hresult
        exact Nat.zero_le limit
  · refine ⟨?_, nofun⟩
    rcases ends_body hs.2.2 h with ⟨-, hshort⟩ | ⟨-, -, -, hresult⟩
    · cases hshort.result_eq
    · obtain rfl := Except.ok.inj hresult
      exact (List.length_take_le _ _).trans hs.1

/-- A buffer that cannot be had was asked for after the header had announced its size, which is
within the limit. -/
theorem announced_of_abort {reason : Abort} (hs : Sound limit framing s)
    (h : Ends limit d s l (.error (.abort reason)) l') :
    headerSize ≤ (s.taken ++ l.arrivals).length ∧ (s.taken ++ l.arrivals).announced ≤ limit := by
  cases framing <;> cases s
  · rcases ends_line hs h with ⟨_, _, _, hresult⟩ | ⟨_, _, hresult⟩ | ⟨_, _, _, _, hresult⟩ <;>
      cases hresult
  · exact hs.elim
  · exact hs.elim
  · exact hs.elim
  · rcases ends_header hs h with ⟨-, hshort⟩ | ⟨hheader, -, -, events, htake⟩
    · cases hshort.result_eq
    · rcases takeHeader_ended htake with ⟨-, hresult⟩ | ⟨hlimit, -, -⟩ | ⟨-, hresult⟩
      · cases hresult
      · exact ⟨hheader, hlimit⟩
      · cases hresult
  · rcases ends_body hs.2.2 h with ⟨-, hshort⟩ | ⟨-, -, -, hresult⟩
    · cases hshort.result_eq
    · cases hresult

/-! ## Calls -/

/-- The states that a call comes to. -/
theorem reached_of_leads (h : Leads (step limit d) (start framing, l) (s, l')) :
    Sound limit framing s ∧ s.taken ++ l'.arrivals = l.arrivals ∧
      l'.intake = l.intake + s.taken.length := by
  obtain ⟨hsound, harrivals, -⟩ := leads_sound (sound_start limit framing) h
  have hintake := intake_leads (sound_start limit framing) h
  rw [taken_start] at harrivals hintake
  exact ⟨hsound, harrivals, hintake⟩

/-- A call ends in a state that it comes to, by a failure or a last read. -/
theorem exists_reached (framing : Framing) (limit : Nat) (d : Deadline) (l : Link) :
    ∃ s m, Sound limit framing s ∧ s.taken ++ m.arrivals = l.arrivals ∧
      (receive framing limit d l).2.1.intake ≤ l.intake + (s.taken.length + s.room) ∧
      ((∃ failure, (receive framing limit d l).1 = .error (.failure failure)) ∨
        Ends limit d s m (receive framing limit d l).1 (receive framing limit d l).2.1) := by
  obtain ⟨s, m, events, hlead, hlast⟩ := exists_last_round limit d (start framing) l
  obtain ⟨hsound, harrivals, hintake⟩ := reached_of_leads hlead
  have hstep := intake_step_le limit d s m
  rw [hlast, hintake, Nat.add_assoc] at hstep
  exact ⟨s, m, hsound, harrivals, hstep, failure_or_ends hsound hlast⟩

end Receiving

/-- What a peer cannot exceed, whatever the script of the link. A call takes at most the limit and
a piece off it under newline framing, and at most the header and the limit under length-prefixed
framing. At the start of every round it has taken what its state stands for, and no more of a
reply than the limit admits. A reply is within the limit, and a line without a blank at its end.
There is a buffer for the body only after the header has announced its size, within the limit;
also when the buffer cannot be had. -/
theorem receive_bounded (framing : Framing) (limit : Nat) (d : Deadline) (l : Link) :
    (framing = .newline →
      (receive framing limit d l).2.1.intake ≤ l.intake + (limit + pieceSize)) ∧
    (framing = .lengthPrefixed →
      (receive framing limit d l).2.1.intake ≤ l.intake + (headerSize + limit)) ∧
    (∀ s m, Leads (Receiving.step limit d) (.start framing, l) (s, m) →
      m.intake = l.intake + s.taken.length ∧ s.reply.length ≤ limit) ∧
    (∀ reply, (receive framing limit d l).1 = .ok reply → reply.length ≤ limit ∧
      (framing = .newline → lineFeed ∉ reply ∧ ∀ b ∈ reply.getLast?, Bytes.isBlank b = false)) ∧
    (∀ size got m, Leads (Receiving.step limit d) (.start framing, l) (.body size got, m) →
      headerSize ≤ l.arrivals.length ∧ l.arrivals.announced = size ∧ size ≤ limit) ∧
    ∀ reason, (receive framing limit d l).1 = .error (.abort reason) →
      headerSize ≤ l.arrivals.length ∧ l.arrivals.announced ≤ limit := by
  obtain ⟨s, m, hsound, harrivals, hintake, hends⟩ := Receiving.exists_reached framing limit d l
  obtain ⟨hnewline, hprefixed⟩ := hsound.length_taken_add_room_le
  refine ⟨fun hframing => ?_, fun hframing => ?_, fun s m hlead => ?_, fun reply hreply => ?_,
    fun size got m hlead => ?_, fun reason habort => ?_⟩
  · exact hintake.trans (Nat.add_le_add_left (hnewline hframing) _)
  · exact hintake.trans (Nat.add_le_add_left (hprefixed hframing) _)
  · obtain ⟨hreached, -, htaken⟩ := Receiving.reached_of_leads hlead
    exact ⟨htaken, hreached.length_reply_le⟩
  · rw [hreply] at hends
    rcases hends with ⟨_, hfailure⟩ | hends
    · cases hfailure
    · exact Receiving.reply_of_ends hsound hends
  · obtain ⟨hreached, hstream, -⟩ := Receiving.reached_of_leads hlead
    exact hstream ▸ hreached.announced_of_body
  · rw [habort] at hends
    rcases hends with ⟨_, hfailure⟩ | hends
    · cases hfailure
    · exact harrivals ▸ Receiving.announced_of_abort hsound hends

end FramedRelay
