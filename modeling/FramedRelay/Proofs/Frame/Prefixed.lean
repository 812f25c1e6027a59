import FramedRelay.Proofs.Frame.Intake

/-!
# Receiving a length-prefixed message

The header and the body are each the next so many bytes of the stream, or the stream ends within
them (`Receiving.ends_header`, `Receiving.ends_body`). `Receiving.Prefixed` lists what the stream
can come to, with how much of it is taken, and a call that is not held up comes to nothing else
(`Receiving.prefixed_of_prompt`), however the stream is cut (`Receiving.Prefixed.unique`).
`receive_lengthPrefixed` says which it is.

A message whose frame comes next on a link is received as it was sent, and exactly its frame is
taken (`receive_encode`).
-/

namespace FramedRelay

namespace Receiving

variable {limit size : Nat} {d : Deadline} {m l' : Link} {got : Bytes} {result : Except Stop Bytes}

/-- How a stream that ends within `size` bytes that must come ends the work, after `got`. -/
def Short (d : Deadline) (size : Nat) (got : Bytes) (ending : StreamEnd)
    (result : Except Stop Bytes) : Prop :=
  got.length < size ∧
    (ending = .closed ∧ result = .error (.failure (atEnd.shortOf got size)) ∨
      ∃ f, ending = .broken f ∧ result = .error (.failure (d.failureOf .read f)))

/-- A piece that leaves nothing to come is what was missing of `size` bytes, and the stream goes on
behind it. -/
theorem split_of_room {piece rest : Bytes} (hs : got.length < size)
    (hroom : piece.length ≤ size - got.length) (hge : ¬(got ++ piece).length < size) :
    size ≤ (got ++ (piece ++ rest)).length ∧ rest = (got ++ (piece ++ rest)).drop size ∧
      got ++ piece = (got ++ (piece ++ rest)).take size := by
  have hlength : (got ++ piece).length = size := by
    simp only [List.length_append] at hge ⊢
    omega
  rw [← List.append_assoc, ← hlength]
  refine ⟨?_, ?_, ?_⟩
  · simp
  · rw [List.drop_left]
  · rw [List.take_left]

/-- The last round within the header: the stream ends, or the eight bytes have come. -/
theorem ends_header (hs : got.length < headerSize) (h : Ends limit d (.header got) m result l') :
    (m.arrivals = [] ∧ Short d headerSize got m.ending result) ∨
    (headerSize ≤ (got ++ m.arrivals).length ∧
      l'.arrivals = (got ++ m.arrivals).drop headerSize ∧ l'.ending = m.ending ∧
      ∃ events, takeHeader limit l' ((got ++ m.arrivals).take headerSize) =
        ⟨.ended result, l', events⟩) := by
  cases h with
  | @piece b bs _ _ events hroom harrivals hending htake =>
    right
    simp only [take] at htake
    split at htake
    · simp [Progress.again] at htake
    · next hge =>
      obtain ⟨hle, hdrop, htaken⟩ := split_of_room hs hroom hge
      rw [harrivals, ← hdrop, ← htaken]
      exact ⟨hle, rfl, hending, events, htake⟩
  | closed harrivals hending hend =>
    simp only [atEnd, Progress.fail, Progress.mk.injEq, Round.ended.injEq] at hend
    obtain ⟨rfl, -⟩ := hend
    exact Or.inl ⟨harrivals, hs, Or.inl ⟨hending, rfl⟩⟩
  | broken harrivals hending => exact Or.inl ⟨harrivals, hs, Or.inr ⟨_, hending, rfl⟩⟩

/-- The last round within the body: the stream ends, or all bytes announced have come. -/
theorem ends_body (hs : got.length < size) (h : Ends limit d (.body size got) m result l') :
    (m.arrivals = [] ∧ Short d size got m.ending result) ∨
    (size ≤ (got ++ m.arrivals).length ∧
      l'.arrivals = (got ++ m.arrivals).drop size ∧ l'.ending = m.ending ∧
      result = .ok ((got ++ m.arrivals).take size)) := by
  cases h with
  | @piece b bs _ _ events hroom harrivals hending htake =>
    right
    simp only [take] at htake
    split at htake
    · simp [Progress.again] at htake
    · next hge =>
      simp only [Progress.ok, Progress.mk.injEq, Round.ended.injEq] at htake
      obtain ⟨rfl, -⟩ := htake
      obtain ⟨hle, hdrop, htaken⟩ := split_of_room hs hroom hge
      rw [harrivals, ← hdrop, ← htaken]
      exact ⟨hle, rfl, hending, rfl⟩
  | closed harrivals hending hend =>
    simp only [atEnd, Progress.fail, Progress.mk.injEq, Round.ended.injEq] at hend
    obtain ⟨rfl, -⟩ := hend
    exact Or.inl ⟨harrivals, hs, Or.inl ⟨hending, rfl⟩⟩
  | broken harrivals hending => exact Or.inl ⟨harrivals, hs, Or.inr ⟨_, hending, rfl⟩⟩

/-- A header that ends the work announces too much, more than there are buffers for, or nothing. -/
theorem takeHeader_ended {header : Bytes} {l : Link} {events : List Event}
    (h : takeHeader limit l header = ⟨.ended result, l', events⟩) :
    (limit < header.ofLittleEndian ∧
      result = .error (.failure (.replyTooLarge header.ofLittleEndian limit))) ∨
    (header.ofLittleEndian ≤ limit ∧ bufferLimit ≤ header.ofLittleEndian ∧
      result = .error (.abort .capacityOverflow)) ∨
    (header.ofLittleEndian = 0 ∧ result = .ok []) := by
  simp only [takeHeader] at h
  split at h
  · next hlimit =>
    simp only [Progress.fail, Progress.mk.injEq, Round.ended.injEq] at h
    exact Or.inl ⟨hlimit, h.1.symm⟩
  · next hlimit =>
    split at h
    · next hbuffer =>
      simp only [Progress.abort, Progress.mk.injEq, Round.ended.injEq] at h
      exact Or.inr (Or.inl ⟨Nat.le_of_not_lt hlimit, hbuffer, h.1.symm⟩)
    · split at h
      · next hsize =>
        simp only [Progress.ok, Progress.mk.injEq, Round.ended.injEq] at h
        exact Or.inr (Or.inr ⟨hsize, h.1.symm⟩)
      · simp [Progress.again] at h

end Receiving

/-! ## What the stream decides -/

/-- A number of a message's bytes that a buffer can hold fits in the header. -/
theorem ofLittleEndian_header {size : Nat} (h : size < bufferLimit) :
    (Bytes.littleEndian headerSize size).ofLittleEndian = size :=
  Bytes.ofLittleEndian_littleEndian (Nat.lt_trans h (by decide))

/-- The number in the header that a stream starts with. -/
def Bytes.announced (bs : Bytes) : Nat := ofLittleEndian (bs.take headerSize)

theorem Bytes.announced_append {header : Bytes} (h : header.length = headerSize) (rest : Bytes) :
    (header ++ rest).announced = header.ofLittleEndian := by
  rw [announced, List.take_left' h]

/-- The failure of a stream that ends after `got` of `size` bytes that must come. -/
def StreamEnd.failure (d : Deadline) (got size : Nat) : StreamEnd → Failure
  | .closed => .receiveFailed ("connection closed after " ++ toString got ++ " of " ++
      toString size ++ " frame bytes")
  | .broken f => if f.isTimeout then .timedOut d.stage else .receiveFailed f.text

/-- So many of the bytes that a link gives have been taken. -/
structure Link.Took (l : Link) (count : Nat) (l' : Link) : Prop where
  intake : l'.intake = l.intake + count
  arrivals : l'.arrivals = l.arrivals.drop count
  ending : l'.ending = l.ending

namespace Receiving

variable {limit size : Nat} {d : Deadline} {l l' m m' : Link} {got : Bytes}
  {result result' : Except Stop Bytes}

theorem Short.result_eq {ending : StreamEnd} (h : Short d size got ending result) :
    result = .error (.failure (ending.failure d got.length size)) := by
  rcases h.2 with ⟨rfl, hresult⟩ | ⟨f, rfl, hresult⟩
  · exact hresult
  · exact hresult

/-- What the stream of a link makes of a length-prefixed reply, and what is taken for it. -/
inductive Prefixed (limit : Nat) (d : Deadline) (l l' : Link) : Except Stop Bytes → Prop
  /-- The stream ends within the header. -/
  | noHeader (hshort : l.arrivals.length < headerSize)
      (hall : l'.intake = l.intake + l.arrivals.length) :
      Prefixed limit d l l' (.error (.failure (l.ending.failure d l.arrivals.length headerSize)))
  | tooLarge (hheader : headerSize ≤ l.arrivals.length) (hlimit : limit < l.arrivals.announced)
      (htook : l.Took headerSize l') :
      Prefixed limit d l l' (.error (.failure (.replyTooLarge l.arrivals.announced limit)))
  /-- No buffer can hold what is announced. -/
  | unbuffered (hheader : headerSize ≤ l.arrivals.length) (hlimit : l.arrivals.announced ≤ limit)
      (hbuffer : bufferLimit ≤ l.arrivals.announced) (htook : l.Took headerSize l') :
      Prefixed limit d l l' (.error (.abort .capacityOverflow))
  /-- The stream ends within the body. -/
  | noBody (hheader : headerSize ≤ l.arrivals.length) (hlimit : l.arrivals.announced ≤ limit)
      (hbuffer : l.arrivals.announced < bufferLimit)
      (hshort : l.arrivals.length < headerSize + l.arrivals.announced)
      (hall : l'.intake = l.intake + l.arrivals.length) :
      Prefixed limit d l l' (.error (.failure (l.ending.failure d
        (l.arrivals.length - headerSize) l.arrivals.announced)))
  | whole (hlimit : l.arrivals.announced ≤ limit) (hbuffer : l.arrivals.announced < bufferLimit)
      (hwhole : headerSize + l.arrivals.announced ≤ l.arrivals.length)
      (htook : l.Took (headerSize + l.arrivals.announced) l') :
      Prefixed limit d l l' (.ok ((l.arrivals.drop headerSize).take l.arrivals.announced))

/-- The last round has taken the stream up to where it goes on. -/
theorem took_last {s : Receiving} {count : Nat} (hroom : 0 < s.room)
    (hlink : l' = ((m.ready d .read).2.read s.room).2)
    (harrivals : l.arrivals = s.taken ++ m.arrivals)
    (hintake : m.intake = l.intake + s.taken.length)
    (hmore : s.taken.length < count) (hcount : count ≤ l.arrivals.length)
    (hrest : l'.arrivals = l.arrivals.drop count) (hending : l'.ending = l.ending) :
    l.Took count l' := by
  refine ⟨?_, hrest, hending⟩
  have hsum := congrArg List.length harrivals
  have hleft := congrArg List.length hrest
  rw [List.length_append] at hsum
  rw [List.length_drop] at hleft
  have hne : m.arrivals ≠ [] := by
    intro hnil
    rw [hnil, List.length_nil] at hsum
    omega
  have := (intake_last hroom hlink).1 hne
  omega

/-- A call that is not held up comes to what its stream makes of it. -/
theorem prefixed_of_prompt (h : Prompt limit d (.start .lengthPrefixed) l) :
    Prefixed limit d l (receive .lengthPrefixed limit d l).2.1
      (receive .lengthPrefixed limit d l).1 := by
  obtain ⟨s, m, hlead, hsound, harrivals, hending, hlink, hends⟩ := exists_ends_of_prompt h
  have hintake : m.intake = l.intake + s.taken.length :=
    intake_leads (sound_start limit .lengthPrefixed) hlead
  have hroom := hsound.room_pos
  generalize (receive .lengthPrefixed limit d l).2.1 = l', (receive .lengthPrefixed limit d l).1 =
    result at hlink hends ⊢
  cases s with
  | line reply => exact hsound.elim
  | header got =>
    replace harrivals : l.arrivals = got ++ m.arrivals := harrivals
    rcases ends_header hsound hends with ⟨hnil, hshort⟩ | ⟨hheader, hrest, hend, events, htake⟩
    · rw [hnil, List.append_nil] at harrivals
      rw [hshort.result_eq, hending, ← harrivals]
      refine .noHeader (harrivals ▸ hsound) ?_
      rw [(intake_last hroom hlink).2 hnil, hintake, harrivals]
      rfl
    · rw [← harrivals] at hheader hrest htake
      have htook : l.Took headerSize l' := took_last hroom hlink harrivals hintake
        hsound hheader hrest (hend.trans hending)
      rcases takeHeader_ended htake with ⟨hlimit, rfl⟩ | ⟨hlimit, hbuffer, rfl⟩ | ⟨hzero, rfl⟩
      · exact .tooLarge hheader hlimit htook
      · exact .unbuffered hheader hlimit hbuffer htook
      · have hnone : l.arrivals.announced = 0 := hzero
        have hwhole : Prefixed limit d l l'
            (.ok ((l.arrivals.drop headerSize).take l.arrivals.announced)) := by
          refine .whole ?_ ?_ ?_ ?_ <;> rw [hnone]
          · exact Nat.zero_le limit
          · decide
          · exact hheader
          · exact htook
        rwa [hnone, List.take_zero] at hwhole
  | body size got =>
    obtain ⟨hlimit, hbuffer, hgot⟩ := hsound
    have hheader := Bytes.length_littleEndian headerSize size
    have hstream : l.arrivals = Bytes.littleEndian headerSize size ++ (got ++ m.arrivals) :=
      harrivals.trans (List.append_assoc _ _ _)
    have hbody : l.arrivals.drop headerSize = got ++ m.arrivals := by
      rw [hstream, List.drop_left' hheader]
    have hlength : l.arrivals.length = headerSize + (got ++ m.arrivals).length := by
      rw [hstream, List.length_append, hheader]
    obtain rfl : l.arrivals.announced = size := by
      rw [hstream, Bytes.announced_append hheader, ofLittleEndian_header hbuffer]
    have htaken : (body l.arrivals.announced got).taken.length = headerSize + got.length := by
      rw [taken, List.length_append, hheader]
    rcases ends_body hgot hends with ⟨hnil, hshort⟩ | ⟨hle, hrest, hend, rfl⟩
    · rw [hnil, List.append_nil] at hlength
      have hgot' : got.length = l.arrivals.length - headerSize := by omega
      rw [hshort.result_eq, hending, hgot']
      refine .noBody (by omega) hlimit hbuffer (by omega) ?_
      rw [(intake_last hroom hlink).2 hnil, hintake, htaken, hlength]
    · rw [← hbody]
      refine .whole hlimit hbuffer (by omega) ?_
      refine took_last hroom hlink harrivals hintake (by omega) (by omega) ?_
        (hend.trans hending)
      rw [hrest, ← hbody, List.drop_drop]

end Receiving

/-- What is made of a stream does not depend on how it is cut. -/
theorem Receiving.Prefixed.unique {limit : Nat} {d : Deadline} {l l' m m' : Link}
    {result result' : Except Stop Bytes} (h : Receiving.Prefixed limit d l l' result)
    (h' : Receiving.Prefixed limit d m m' result') (harrivals : m.arrivals = l.arrivals)
    (hending : m.ending = l.ending) :
    result' = result ∧ ∃ count, l'.intake = l.intake + count ∧ m'.intake = m.intake + count := by
  cases h' with
  | noHeader hshort' hall' =>
    rw [harrivals] at hshort' hall' ⊢
    cases h with
    | noHeader _ hall => exact ⟨by rw [hending], _, hall, hall'⟩
    | tooLarge | unbuffered | noBody | whole => omega
  | tooLarge hheader' hlimit' htook' =>
    rw [harrivals] at hheader' hlimit' ⊢
    cases h with
    | tooLarge _ _ htook => exact ⟨rfl, _, htook.intake, htook'.intake⟩
    | noHeader | unbuffered | noBody | whole => omega
  | unbuffered hheader' hlimit' hbuffer' htook' =>
    rw [harrivals] at hheader' hlimit' hbuffer'
    cases h with
    | unbuffered _ _ _ htook => exact ⟨rfl, _, htook.intake, htook'.intake⟩
    | noHeader | tooLarge | noBody | whole => omega
  | noBody hheader' hlimit' hbuffer' hshort' hall' =>
    rw [harrivals] at hheader' hlimit' hbuffer' hshort' hall' ⊢
    cases h with
    | noBody _ _ _ _ hall => exact ⟨by rw [hending], _, hall, hall'⟩
    | noHeader | tooLarge | unbuffered | whole => omega
  | whole hlimit' hbuffer' hwhole' htook' =>
    rw [harrivals] at hlimit' hbuffer' hwhole' htook' ⊢
    cases h with
    | whole _ _ _ htook => exact ⟨rfl, _, htook.intake, htook'.intake⟩
    | noHeader | tooLarge | unbuffered | noBody => omega

/-- A message whose frame comes next is received, and exactly its frame is taken. -/
theorem receive_encode {limit : Nat} {d : Deadline} {l : Link} {payload rest : Bytes}
    (hprompt : Receiving.Prompt limit d (.start .lengthPrefixed) l)
    (hlimit : payload.length ≤ limit) (hbuffer : payload.length < bufferLimit)
    (hl : l.arrivals = Framing.lengthPrefixed.encode payload ++ rest) :
    (receive .lengthPrefixed limit d l).1 = .ok payload ∧
      (receive .lengthPrefixed limit d l).2.1.arrivals = rest ∧
      (receive .lengthPrefixed limit d l).2.1.ending = l.ending := by
  have hheader := Bytes.length_littleEndian headerSize payload.length
  rw [Framing.encode, List.append_assoc] at hl
  have hsize : l.arrivals.announced = payload.length := by
    rw [hl, Bytes.announced_append hheader, ofLittleEndian_header hbuffer]
  have hbody : l.arrivals.drop headerSize = payload ++ rest := by
    rw [hl, List.drop_left' hheader]
  have hlength : l.arrivals.length = headerSize + (payload.length + rest.length) := by
    rw [hl, List.length_append, hheader, List.length_append]
  have hcomes := Receiving.prefixed_of_prompt hprompt
  generalize (receive .lengthPrefixed limit d l).2.1 = l',
    (receive .lengthPrefixed limit d l).1 = result at hcomes ⊢
  cases hcomes with
  | noHeader | tooLarge | unbuffered | noBody => omega
  | whole _ _ _ htook =>
    rw [hsize, hbody, List.take_left]
    refine ⟨rfl, ?_, htook.ending⟩
    rw [htook.arrivals, hsize, ← List.drop_drop, hbody, List.drop_left]

/-- The reply under length-prefixed framing, for every way in which the peer's bytes arrive. Let no
round find the deadline reached or fail to set the timeout, and let there be buffers for all that
the limit admits. If the stream has a header, a number in it beyond the limit is refused with
nothing taken but the header; a body that comes whole is the reply, with nothing taken but its
frame; and a stream that ends within the header or the body fails with what ends it, with all of
it taken. How the stream is cut into pieces decides nothing. -/
theorem receive_lengthPrefixed {limit : Nat} (hlimit : limit < bufferLimit) (d : Deadline)
    (l : Link) (h : Receiving.Prompt limit d (.start .lengthPrefixed) l) :
    (headerSize ≤ l.arrivals.length → limit < l.arrivals.announced →
      (receive .lengthPrefixed limit d l).1 =
        .error (.failure (.replyTooLarge l.arrivals.announced limit)) ∧
      l.Took headerSize (receive .lengthPrefixed limit d l).2.1) ∧
    (headerSize + l.arrivals.announced ≤ l.arrivals.length → l.arrivals.announced ≤ limit →
      (receive .lengthPrefixed limit d l).1 =
        .ok ((l.arrivals.drop headerSize).take l.arrivals.announced) ∧
      l.Took (headerSize + l.arrivals.announced) (receive .lengthPrefixed limit d l).2.1) ∧
    (l.arrivals.length < headerSize →
      (receive .lengthPrefixed limit d l).1 =
        .error (.failure (l.ending.failure d l.arrivals.length headerSize)) ∧
      (receive .lengthPrefixed limit d l).2.1.intake = l.intake + l.arrivals.length) ∧
    (headerSize ≤ l.arrivals.length → l.arrivals.announced ≤ limit →
      l.arrivals.length < headerSize + l.arrivals.announced →
      (receive .lengthPrefixed limit d l).1 = .error (.failure
        (l.ending.failure d (l.arrivals.length - headerSize) l.arrivals.announced)) ∧
      (receive .lengthPrefixed limit d l).2.1.intake = l.intake + l.arrivals.length) ∧
    ∀ m, Receiving.Prompt limit d (.start .lengthPrefixed) m →
      m.arrivals = l.arrivals → m.ending = l.ending →
      (receive .lengthPrefixed limit d m).1 = (receive .lengthPrefixed limit d l).1 ∧
      ∃ count, (receive .lengthPrefixed limit d l).2.1.intake = l.intake + count ∧
        (receive .lengthPrefixed limit d m).2.1.intake = m.intake + count := by
  have hcomes := Receiving.prefixed_of_prompt h
  have hsame : ∀ m, Receiving.Prompt limit d (.start .lengthPrefixed) m →
      m.arrivals = l.arrivals → m.ending = l.ending → _ := fun m hm harrivals hending =>
    hcomes.unique (Receiving.prefixed_of_prompt hm) harrivals hending
  generalize (receive .lengthPrefixed limit d l).2.1 = l',
    (receive .lengthPrefixed limit d l).1 = result at hcomes hsame ⊢
  cases hcomes with
  | noHeader hshort hall =>
    exact ⟨by omega, by omega, fun _ => ⟨rfl, hall⟩, by omega, hsame⟩
  | tooLarge hheader hlarge htook =>
    exact ⟨fun _ _ => ⟨rfl, htook⟩, by omega, by omega, by omega, hsame⟩
  | unbuffered => omega
  | noBody hheader hadmitted _ hshort hall =>
    exact ⟨by omega, by omega, by omega, fun _ _ _ => ⟨rfl, hall⟩, hsame⟩
  | whole hadmitted _ hwhole htook =>
    exact ⟨by omega, fun _ _ => ⟨rfl, htook⟩, by omega, by omega, hsame⟩

/-- A link that gives three bytes of a header, is interrupted, and then gives the other five with
the first two bytes of the body, and at last the third with one byte more. -/
def splitHeader : Link where
  reads := [{ result := .ok [3, 0, 0] }, { delay := 3, result := .error (.ofSystem 4) },
    { result := .ok [0, 0, 0, 0, 0, 0x61, 0x0A] }, { delay := 5, result := .ok [0x62, 0x63] }]

theorem receive_lengthPrefixed_splitHeader :
    4 < bufferLimit ∧
      Receiving.Prompt 4 ⟨10, "waiting for reply"⟩ (.start .lengthPrefixed) splitHeader ∧
      (receive .lengthPrefixed 4 ⟨10, "waiting for reply"⟩ splitHeader).1 =
        .ok [0x61, 0x0A, 0x62] ∧
      splitHeader.Took 11
        (receive .lengthPrefixed 4 ⟨10, "waiting for reply"⟩ splitHeader).2.1 := by
  have hlimit : 4 < bufferLimit := by decide
  have hprompt :
      Receiving.Prompt 4 ⟨10, "waiting for reply"⟩ (.start .lengthPrefixed) splitHeader :=
    Link.Punctual.prompt_receiving ⟨by decide, by decide⟩ _ _
  exact ⟨hlimit, hprompt,
    (receive_lengthPrefixed hlimit _ _ hprompt).2.1 (by decide) (by decide)⟩

end FramedRelay
