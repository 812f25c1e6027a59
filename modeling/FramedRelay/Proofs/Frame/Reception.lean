import FramedRelay.Proofs.Frame.Arrivals
import FramedRelay.Proofs.Frame.Rounds
import Mathlib.Data.List.TakeWhile

/-!
# What receiving has taken

A state of receiving stands for the bytes that were taken off the link to come to it
(`Receiving.taken`), and is `Receiving.Sound`: the bytes so far do not make a whole reply, nor
are they more than the limit admits. Every round but the last keeps both, and loses no byte: the
bytes taken and those that the link still gives make up the same stream before and after
(`Receiving.step_again`).

`Receiving.Ends` lists how the last round can end a run that is not held up. It is all that there
is to know about the result (`exists_ends_of_prompt`), and none of it mentions how the stream was
cut.
-/

namespace FramedRelay

namespace Bytes

theorem littleEndian_ofLittleEndian (bs : Bytes) :
    littleEndian bs.length (ofLittleEndian bs) = bs := by
  induction bs with
  | nil => rfl
  | cons b bs ih =>
    have hb := b.toNat_lt
    have hlow : (b.toNat + 256 * ofLittleEndian bs) % 256 = b.toNat := by omega
    have hhigh : (b.toNat + 256 * ofLittleEndian bs) / 256 = ofLittleEndian bs := by omega
    simp [littleEndian, ofLittleEndian, hlow, hhigh, ih]

end Bytes

namespace Receiving

variable {framing : Framing} {limit : Nat} {d : Deadline} {s s' : Receiving} {l l' : Link}
  {events : List Event} {result : Except Stop Bytes}

/-- The bytes that have been taken off the link. -/
def taken : Receiving → Bytes
  | .line reply => reply
  | .header got => got
  | .body size got => Bytes.littleEndian headerSize size ++ got

/-- The bytes taken are within the limit, and more must come. -/
def Sound (limit : Nat) : Framing → Receiving → Prop
  | .newline, .line reply => reply.length ≤ limit ∧ lineFeed ∉ reply
  | .lengthPrefixed, .header got => got.length < headerSize
  | .lengthPrefixed, .body size got => size ≤ limit ∧ size < bufferLimit ∧ got.length < size
  | _, _ => False

theorem sound_start (limit : Nat) (framing : Framing) : Sound limit framing (start framing) := by
  cases framing with
  | newline => exact ⟨Nat.zero_le _, List.not_mem_nil⟩
  | lengthPrefixed => exact Nat.succ_pos _

theorem taken_start (framing : Framing) : (start framing).taken = [] := by
  cases framing <;> rfl

theorem Sound.room_pos (hs : Sound limit framing s) : 0 < s.room := by
  cases framing <;> cases s
  · exact Nat.succ_pos _
  · exact hs.elim
  · exact hs.elim
  · exact hs.elim
  · exact Nat.sub_pos_of_lt hs
  · exact Nat.sub_pos_of_lt hs.2.2

/-! ## Rounds but the last -/

theorem takeLine_again {reply piece : Bytes} (hs : Sound limit .newline (.line reply))
    (h : takeLine limit l reply piece = ⟨.again s', l', events⟩) :
    Sound limit .newline s' ∧ s'.taken = reply ++ piece := by
  simp only [takeLine] at h
  split at h
  · simp [Progress.fail] at h
  · next hlimit =>
    split at h
    · simp [Progress.ok] at h
    · next hpart =>
      simp only [Progress.again, Progress.mk.injEq, Round.again.injEq] at h
      obtain ⟨rfl, -, -⟩ := h
      have hpiece : piece.takeWhile (· != lineFeed) = piece :=
        (List.takeWhile_prefix _).eq_of_length_le (Nat.le_of_not_lt hpart)
      have hno : lineFeed ∉ piece := fun hmem => by
        simpa using List.takeWhile_eq_self_iff.1 hpiece _ hmem
      rw [hpiece] at hlimit ⊢
      exact ⟨⟨Nat.le_of_not_lt hlimit, by simp [hs.2, hno]⟩, rfl⟩

theorem takeHeader_again {header : Bytes} (hheader : header.length = headerSize)
    (h : takeHeader limit l header = ⟨.again s', l', events⟩) :
    Sound limit .lengthPrefixed s' ∧ s'.taken = header := by
  simp only [takeHeader] at h
  split at h
  · simp [Progress.fail] at h
  · next hlimit =>
    split at h
    · simp [Progress.abort] at h
    · next hbuffer =>
      split at h
      · simp [Progress.ok] at h
      · next hsize =>
        simp only [Progress.again, Progress.mk.injEq, Round.again.injEq] at h
        obtain ⟨rfl, -, -⟩ := h
        refine ⟨⟨Nat.le_of_not_lt hlimit, Nat.lt_of_not_le hbuffer, Nat.pos_of_ne_zero hsize⟩, ?_⟩
        have := Bytes.littleEndian_ofLittleEndian header
        rw [hheader] at this
        simp [taken, this]

/-- A piece that does not end the run goes to those taken. -/
theorem take_again {piece : Bytes} (hs : Sound limit framing s) (hroom : piece.length ≤ s.room)
    (h : s.take limit l piece = ⟨.again s', l', events⟩) :
    Sound limit framing s' ∧ s'.taken = s.taken ++ piece := by
  cases framing <;> cases s
  · exact takeLine_again hs h
  · exact hs.elim
  · exact hs.elim
  · exact hs.elim
  · next got =>
    simp only [take] at h
    split at h
    · next hlt =>
      simp only [Progress.again, Progress.mk.injEq, Round.again.injEq] at h
      obtain ⟨rfl, -, -⟩ := h
      exact ⟨hlt, rfl⟩
    · next hge =>
      have hgot : got.length < headerSize := hs
      have hlength : (got ++ piece).length = headerSize := by
        simp only [room, List.length_append] at hroom hge ⊢
        omega
      exact takeHeader_again hlength h
  · next size got =>
    simp only [take] at h
    split at h
    · next hlt =>
      simp only [Progress.again, Progress.mk.injEq, Round.again.injEq] at h
      obtain ⟨rfl, -, -⟩ := h
      exact ⟨⟨hs.1, hs.2.1, hlt⟩, by simp [taken]⟩
    · simp [Progress.ok] at h

theorem arrivals_ready (l : Link) (d : Deadline) (direction : Direction) :
    (l.ready d direction).2.arrivals = l.arrivals ∧ (l.ready d direction).2.ending = l.ending := by
  obtain ⟨hreads, hunread⟩ := reads_ready l d direction
  exact ⟨by rw [Link.arrivals, Link.arrivals, hreads, hunread],
    by rw [Link.ending, Link.ending, hreads]⟩

/-- No round but the last loses a byte. -/
theorem step_again (hs : Sound limit framing s) (h : step limit d s l = ⟨.again s', l', events⟩) :
    Sound limit framing s' ∧ s'.taken ++ l'.arrivals = s.taken ++ l.arrivals ∧
      l'.ending = l.ending := by
  obtain ⟨harrivals, hending⟩ := arrivals_ready l d .read
  unfold step at h
  split at h
  · simp [Progress.fail] at h
  · next m hready =>
    rw [hready] at harrivals hending
    have hgives := m.gives_read hs.room_pos
    split at h
    · next m' hread =>
      obtain ⟨result, hround⟩ := (atEnd_ended m' s).2
      simp [h] at hround
    · next b bs m' hread =>
      rw [hread] at hgives
      cases hgives with
      | piece hroom hpiece hend =>
        obtain ⟨hsound, htaken⟩ := take_again hs hroom h
        have hlink := link_take limit m' (b :: bs) s
        rw [h] at hlink
        obtain rfl : l' = m' := hlink
        refine ⟨hsound, ?_, hend.trans hending⟩
        rw [htaken, List.append_assoc, ← hpiece, harrivals]
    · next f m' hread =>
      split at h
      · next hf =>
        simp only [Progress.again, Progress.mk.injEq, Round.again.injEq] at h
        obtain ⟨rfl, rfl, -⟩ := h
        rw [hread] at hgives
        cases hgives with
        | interrupted _ hsame hend =>
          exact ⟨hs, by rw [hsame, harrivals], hend.trans hending⟩
        | broken hf' => simp [hf'] at hf
      · simp [Progress.fail] at h

/-- Rounds of receiving take bytes off the link and lose none. -/
theorem leads_sound (hs : Sound limit framing s) (h : Leads (step limit d) (s, l) (s', l')) :
    Sound limit framing s' ∧ s'.taken ++ l'.arrivals = s.taken ++ l.arrivals ∧
      l'.ending = l.ending := by
  refine h.invariant (I := fun s' l' => Sound limit framing s' ∧
    s'.taken ++ l'.arrivals = s.taken ++ l.arrivals ∧ l'.ending = l.ending) ?_ ⟨hs, rfl, rfl⟩
  intro s₁ l₁ s₂ l₂ events hround ⟨hsound, htaken, hend⟩
  obtain ⟨hsound', htaken', hend'⟩ := step_again hsound hround
  exact ⟨hsound', htaken'.trans htaken, hend'.trans hend⟩

/-! ## The last round -/

/-- How a run that is not held up ends, from the state and link of its last round: with a piece
that makes the reply whole or too large, at the end of the stream, or at a fault. -/
inductive Ends (limit : Nat) (d : Deadline) (s : Receiving) (l : Link) :
    Except Stop Bytes → Link → Prop
  | piece {b : UInt8} {bs : Bytes} {result : Except Stop Bytes} {l' : Link}
      {events : List Event} (hroom : (b :: bs).length ≤ s.room)
      (harrivals : l.arrivals = b :: bs ++ l'.arrivals) (hending : l'.ending = l.ending)
      (htake : s.take limit l' (b :: bs) = ⟨.ended result, l', events⟩) : Ends limit d s l result l'
  | closed {result : Except Stop Bytes} {l' : Link} {events : List Event}
      (harrivals : l.arrivals = []) (hending : l.ending = .closed)
      (hend : s.atEnd l' = ⟨.ended result, l', events⟩) : Ends limit d s l result l'
  | broken {f : Fault} {l' : Link} (harrivals : l.arrivals = []) (hending : l.ending = .broken f) :
      Ends limit d s l (.error (.failure (d.failureOf .read f))) l'

/-- The last round is one read, and what it gives ends the run. -/
theorem step_ended (hs : Sound limit framing s) (hready : (l.ready d .read).1 = .ok ())
    (h : step limit d s l = ⟨.ended result, l', events⟩) :
    l' = ((l.ready d .read).2.read s.room).2 ∧ Ends limit d s l result l' := by
  obtain ⟨harrivals, hending⟩ := arrivals_ready l d .read
  unfold step at h
  split at h
  · next failure m hm => simp [hm] at hready
  · next m hm =>
    rw [hm] at harrivals hending ⊢
    have hgives := m.gives_read hs.room_pos
    split at h
    · next m' hread =>
      have hlink := (atEnd_ended m' s).1
      rw [h] at hlink
      obtain rfl : l' = m' := hlink
      rw [hread] at hgives ⊢
      cases hgives with
      | closed harr hend =>
        exact ⟨rfl, .closed (harrivals.symm.trans harr) (hending.symm.trans hend) h⟩
    · next b bs m' hread =>
      have hlink := link_take limit m' (b :: bs) s
      rw [h] at hlink
      obtain rfl : l' = m' := hlink
      rw [hread] at hgives ⊢
      cases hgives with
      | piece hroom harr hend =>
        exact ⟨rfl, .piece hroom (harrivals.symm.trans harr) (hend.trans hending) h⟩
    · next f m' hread =>
      split at h
      · simp [Progress.again] at h
      · next hf =>
        simp only [Progress.fail, Progress.mk.injEq, Round.ended.injEq] at h
        obtain ⟨rfl, rfl, -⟩ := h
        rw [hread] at hgives ⊢
        cases hgives with
        | interrupted hf' => exact absurd hf' hf
        | broken _ harr hend =>
          exact ⟨rfl, .broken (harrivals.symm.trans harr) (hending.symm.trans hend)⟩

/-- A call that is not held up comes by sound states to a last round: every byte that the link
gave before it has been taken, and the one read of that round decides the result. -/
theorem exists_ends_of_prompt (h : Prompt limit d (start framing) l) :
    ∃ s m, Leads (step limit d) (start framing, l) (s, m) ∧ Sound limit framing s ∧
      l.arrivals = s.taken ++ m.arrivals ∧ m.ending = l.ending ∧
      (receive framing limit d l).2.1 = ((m.ready d .read).2.read s.room).2 ∧
      Ends limit d s m (receive framing limit d l).1 (receive framing limit d l).2.1 := by
  obtain ⟨s, m, events, hlead, hlast⟩ := exists_last_round limit d (start framing) l
  obtain ⟨hsound, htaken, hending⟩ := leads_sound (sound_start limit framing) hlead
  obtain ⟨hlink, hends⟩ := step_ended hsound (h s m hlead) hlast
  rw [taken_start, List.nil_append] at htaken
  exact ⟨s, m, hlead, hsound, htaken.symm, hending, hlink, hends⟩

end Receiving

end FramedRelay
