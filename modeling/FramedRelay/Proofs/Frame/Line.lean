import FramedRelay.Proofs.Frame.Reception

/-!
# Receiving a line

The reply under newline framing is a function of the stream alone: its first line
(`Bytes.line`) without the blanks at the end, if the line is within the limit and comes to its
end. `receive_newline` says so for every cutting of the stream into pieces, with interruptions
anywhere; only the size that a refusal names depends on the pieces. The read that decides is the
last.
-/

namespace FramedRelay

/-- The bytes before the first line feed. -/
def Bytes.line (bs : Bytes) : Bytes :=
  bs.takeWhile (· != lineFeed)

namespace Bytes

variable {as bs : Bytes}

theorem line_eq_self (h : lineFeed ∉ bs) : bs.line = bs :=
  List.takeWhile_eq_self_iff.2 fun b hb => by simpa using fun hb' : b = lineFeed => h (hb' ▸ hb)

theorem length_line_lt_iff : bs.line.length < bs.length ↔ lineFeed ∈ bs := by
  constructor
  · intro h
    by_contra hno
    rw [line_eq_self hno] at h
    exact Nat.lt_irrefl _ h
  · intro h
    refine Nat.lt_of_le_of_ne (List.takeWhile_prefix _).length_le fun heq => ?_
    have hall := List.takeWhile_eq_self_iff.1 ((List.takeWhile_prefix _).eq_of_length heq)
    simpa using hall _ h

theorem line_append_of_notMem (h : lineFeed ∉ as) : (as ++ bs).line = as ++ bs.line :=
  List.takeWhile_append_of_pos fun b hb => by simpa using fun hb' : b = lineFeed => h (hb' ▸ hb)

theorem line_append_of_mem (h : lineFeed ∈ as) : (as ++ bs).line = as.line := by
  have hlt : as.line.length < as.length := length_line_lt_iff.2 h
  simp only [line] at hlt ⊢
  rw [List.takeWhile_append, if_neg hlt.ne]

theorem line_prefix_line_append (as bs : Bytes) : as.line <+: (as ++ bs).line := by
  by_cases h : lineFeed ∈ as
  · exact (line_append_of_mem h).symm ▸ List.prefix_refl as.line
  · rw [line_append_of_notMem h, line_eq_self h]
    exact List.prefix_append as bs.line

end Bytes

namespace Receiving

variable {limit : Nat} {d : Deadline} {m l l' : Link} {reply : Bytes} {result : Except Stop Bytes}
  {events : List Event}

/-- A piece ends a line by making it too long or by bringing the line feed. -/
theorem takeLine_ended {piece : Bytes}
    (h : takeLine limit l reply piece = ⟨.ended result, l', events⟩) :
    (limit < (reply ++ piece.line).length ∧
      result = .error (.failure (.replyTooLarge (reply ++ piece.line).length limit))) ∨
    ((reply ++ piece.line).length ≤ limit ∧ lineFeed ∈ piece ∧
      result = .ok (reply ++ piece.line).trimEnd) := by
  simp only [takeLine] at h
  split at h
  · next hlimit =>
    simp only [Progress.fail, Progress.mk.injEq, Round.ended.injEq] at h
    exact Or.inl ⟨hlimit, h.1.symm⟩
  · next hlimit =>
    split at h
    · next hpart =>
      simp only [Progress.ok, Progress.mk.injEq, Round.ended.injEq] at h
      exact Or.inr ⟨Nat.le_of_not_lt hlimit, Bytes.length_line_lt_iff.1 hpart, h.1.symm⟩
    · simp [Progress.again] at h

/-- The last round of receiving a line, after the bytes `reply`: the line is too long, or whole,
or its stream broke off. -/
theorem ends_line (hs : Sound limit .newline (.line reply))
    (h : Ends limit d (.line reply) m result l') :
    (∃ size, limit < size ∧ size ≤ min (reply ++ m.arrivals).line.length (limit + pieceSize) ∧
      result = .error (.failure (.replyTooLarge size limit))) ∨
    ((reply ++ m.arrivals).line.length ≤ limit ∧
      (lineFeed ∈ reply ++ m.arrivals ∨ m.ending = .closed) ∧
      result = .ok (reply ++ m.arrivals).line.trimEnd) ∨
    ((reply ++ m.arrivals).line.length ≤ limit ∧ lineFeed ∉ reply ++ m.arrivals ∧
      ∃ f, m.ending = .broken f ∧ result = .error (.failure (d.failureOf .read f))) := by
  obtain ⟨hlength, hno⟩ := hs
  rw [Bytes.line_append_of_notMem hno]
  cases h with
  | @piece b bs _ _ _ hroom harrivals hending htake =>
    have hprefix := (Bytes.line_prefix_line_append (b :: bs) l'.arrivals).length_le
    have hpart : (Bytes.line (b :: bs)).length ≤ (b :: bs).length :=
      (List.takeWhile_prefix _).length_le
    rw [← harrivals] at hprefix
    rcases takeLine_ended htake with ⟨hlimit, rfl⟩ | ⟨hlimit, hmem, rfl⟩
    · refine Or.inl ⟨_, hlimit, ?_, rfl⟩
      simp only [room, List.length_append] at hroom ⊢
      omega
    · rw [harrivals, Bytes.line_append_of_mem hmem]
      exact Or.inr (Or.inl ⟨hlimit,
        Or.inl (List.mem_append_right _ (List.mem_append_left _ hmem)), rfl⟩)
  | closed harrivals hending hend =>
    simp only [atEnd, Progress.ok, Progress.mk.injEq, Round.ended.injEq] at hend
    obtain ⟨rfl, -⟩ := hend
    refine Or.inr (Or.inl ⟨?_, Or.inr hending, ?_⟩)
    · simpa [harrivals, Bytes.line] using hlength
    · simp [harrivals, Bytes.line]
  | broken harrivals hending =>
    refine Or.inr (Or.inr ⟨?_, ?_, _, hending, rfl⟩)
    · simpa [harrivals, Bytes.line] using hlength
    · simpa [harrivals] using hno

end Receiving

/-- The reply under newline framing, for every way in which the peer's bytes arrive. Let no round
find the deadline reached or fail to set the timeout. If the first line of the stream exceeds the
limit, the reply is refused; if not, and the line or the stream comes to its end, the reply is
the line without the blanks at its end; and a stream that breaks off before that gives its fault.
The read that decides is the last: until then no line feed had come, nor more than the limit
admits, nor the end of the stream. -/
theorem receive_newline (limit : Nat) (d : Deadline) (l : Link)
    (h : Receiving.Prompt limit d (.start .newline) l) :
    (limit < l.arrivals.line.length → ∃ size, limit < size ∧
      size ≤ min l.arrivals.line.length (limit + pieceSize) ∧
      (receive .newline limit d l).1 = .error (.failure (.replyTooLarge size limit))) ∧
    (l.arrivals.line.length ≤ limit → lineFeed ∈ l.arrivals ∨ l.ending = .closed →
      (receive .newline limit d l).1 = .ok l.arrivals.line.trimEnd) ∧
    (∀ f, l.arrivals.line.length ≤ limit → lineFeed ∉ l.arrivals → l.ending = .broken f →
      (receive .newline limit d l).1 = .error (.failure
        (if f.isTimeout then .timedOut d.stage else .receiveFailed f.text))) ∧
    ∃ taken m, Leads (Receiving.step limit d) (.line [], l) (.line taken, m) ∧
      l.arrivals = taken ++ m.arrivals ∧ m.ending = l.ending ∧
      lineFeed ∉ taken ∧ taken.length ≤ limit ∧
      (receive .newline limit d l).2.1 = ((m.ready d .read).2.read pieceSize).2 := by
  obtain ⟨s, m, hlead, hsound, harrivals, hending, hlink, hends⟩ :=
    Receiving.exists_ends_of_prompt h
  cases s with
  | header got => exact hsound.elim
  | body size got => exact hsound.elim
  | line taken =>
    have hcases := Receiving.ends_line hsound hends
    rw [show taken ++ m.arrivals = l.arrivals from harrivals.symm, hending] at hcases
    refine ⟨fun hlong => ?_, fun hshort hend => ?_, fun f hshort hno hbroken => ?_,
      taken, m, hlead, harrivals, hending, hsound.2, hsound.1, hlink⟩
    · rcases hcases with hrefused | ⟨hle, -, -⟩ | ⟨hle, -, -⟩
      · exact hrefused
      · omega
      · omega
    · rcases hcases with ⟨size, hlt, hle, -⟩ | ⟨-, -, hok⟩ | ⟨-, hno, f, hbroken, -⟩
      · omega
      · exact hok
      · rcases hend with hmem | hclosed
        · exact absurd hmem hno
        · simp [hclosed] at hbroken
    · rcases hcases with ⟨size, hlt, hle, -⟩ | ⟨-, hmem | hclosed, -⟩ | ⟨-, -, g, hg, herror⟩
      · omega
      · exact absurd hmem hno
      · simp [hclosed] at hbroken
      · obtain rfl : f = g := by simpa [hbroken] using hg
        exact herror

/-- A link that gives `ab`, is interrupted, and then gives `c`, a blank, a line feed and more. -/
def interruptedLine : Link where
  reads := [{ result := .ok [0x61, 0x62] }, { delay := 3, result := .error (.ofSystem 4) },
    { delay := 5, result := .ok [0x63, 0x20, 0x0A, 0x64] }]

theorem receive_newline_interruptedLine :
    Receiving.Prompt 4 ⟨10, "waiting for reply"⟩ (.start .newline) interruptedLine ∧
      (receive .newline 4 ⟨10, "waiting for reply"⟩ interruptedLine).1 =
        .ok [0x61, 0x62, 0x63] := by
  have hprompt : Receiving.Prompt 4 ⟨10, "waiting for reply"⟩ (.start .newline) interruptedLine :=
    Link.Punctual.prompt_receiving ⟨by decide, by decide⟩ _ _
  exact ⟨hprompt, (receive_newline 4 _ _ hprompt).2.1 (by decide) (Or.inl (by decide))⟩

end FramedRelay
