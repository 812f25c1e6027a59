import FramedRelay.Proofs.Exchange.Extent
import FramedRelay.Proofs.Frame.Line
import FramedRelay.Proofs.Http.Admission
import FramedRelay.Proofs.Json.Printing

/-!
# Compact payloads are lines

What is printed has no control character and ends in a byte that shows (`Json.Value.oneLine_print`):
strings escape what they must, numbers are literals, and the rest is punctuation. So a compact
payload makes a newline frame whose one line feed is its last byte, and the frame is received as
that payload (`compact_oneLine`).
-/

namespace FramedRelay

/-- Bytes without a control character that end in one that shows. -/
structure Bytes.OneLine (bs : Bytes) : Prop where
  printable : ∀ b ∈ bs, 0x20 ≤ b
  shows : ∃ init b, bs = init ++ [b] ∧ 0x20 < b

namespace Bytes.OneLine

variable {as bs : Bytes} {b : UInt8}

theorem append (has : ∀ b ∈ as, 0x20 ≤ b) (h : OneLine bs) : OneLine (as ++ bs) := by
  obtain ⟨init, b, rfl, hb⟩ := h.shows
  refine ⟨fun c hc => ?_, as ++ init, b, by rw [List.append_assoc], hb⟩
  exact (List.mem_append.1 hc).elim (has c) (h.printable c)

theorem cons (hb : 0x20 ≤ b) (h : OneLine bs) : OneLine (b :: bs) :=
  List.singleton_append (x := b) ▸ append (by simpa using hb) h

theorem of_forall (hne : bs ≠ []) (h : ∀ b ∈ bs, 0x20 < b) : OneLine bs :=
  ⟨fun b hb => UInt8.le_of_lt (h b hb), bs.dropLast, bs.getLast hne,
    (List.dropLast_append_getLast hne).symm, h _ (List.getLast_mem hne)⟩

theorem of_all (hne : bs ≠ []) (h : bs.all (0x20 < ·) = true) : OneLine bs :=
  of_forall hne fun b hb => of_decide_eq_true (List.all_eq_true.1 h b hb)

theorem ne_nil (h : OneLine bs) : bs ≠ [] := by
  obtain ⟨init, b, rfl, -⟩ := h.shows
  simp

theorem lineFeed_notMem (h : OneLine bs) : lineFeed ∉ bs := fun hmem =>
  absurd (h.printable _ hmem) (by decide)

/-- Nothing of it is shed at the end. -/
theorem getLast?_not_isBlank (h : OneLine bs) : ∀ b ∈ bs.getLast?, isBlank b = false := by
  obtain ⟨init, b, rfl, hb⟩ := h.shows
  intro c hc
  obtain rfl : b = c := by simpa using hc
  by_contra hblank
  simp only [isBlank, Bool.not_eq_false, Bool.or_eq_true, beq_iff_eq] at hblank
  rcases hblank with (((rfl | rfl) | rfl) | rfl) | rfl <;> revert hb <;> decide

theorem trimEnd_eq (h : OneLine bs) : bs.trimEnd = bs := by
  have hlast := h.getLast?_not_isBlank
  obtain ⟨init, b, rfl, hb⟩ := h.shows
  simp [trimEnd, hlast b (by simp)]

end Bytes.OneLine

namespace Json

open Bytes (OneLine)

/-- No string literal holds a control character. -/
theorem Unescapes.printable {bs out : Bytes} (h : Unescapes bs out) : ∀ b ∈ bs, 0x20 ≤ b := by
  induction h with
  | nil => simp
  | byte hcontrol hquote hbackslash h ih => simpa [hcontrol] using ih
  | @letter b c _ _ hletter h ih =>
    have hb : 0x20 ≤ b := by
      have hall : ∀ a ∈ escapeLetters, 0x20 ≤ a.1 := by simp [escapeLetters]
      exact hall (b, c) hletter
    simpa [hb] using ih
  | unit hds hlead htrail h ih =>
    have hhex := fun b hb => (hds.bounds b hb).1
    simpa [or_imp, forall_and] using ⟨hhex, ih⟩
  | pair hds hes hlead htrail h ih =>
    have hhex := fun b hb => (hds.bounds b hb).1
    have hhex' := fun b hb => (hes.bounds b hb).1
    simpa [or_imp, forall_and] using ⟨hhex, hhex', ih⟩

theorem oneLine_quote (s : String) : OneLine (bytesOf (quote s)) := by
  rw [bytesOf_quote]
  exact .cons (by decide) (.append (quotes_escape s).printable (.of_forall (by simp) (by simp)))

theorem oneLine_member {cs : List Char} (key : String) (h : OneLine (bytesOf cs)) :
    OneLine (bytesOf (quote key ++ ':' :: cs)) := by
  rw [bytesOf_append]
  exact .append (oneLine_quote key).printable (.cons (by decide) h)

mutual

theorem Value.oneLine_text : ∀ v : Value, OneLine (bytesOf v.text)
  | .null | .bool true | .bool false | .array [] | .object [] => .of_all (by decide) (by decide)
  | .number n => by
    obtain ⟨l, hl⟩ := n.exists_printedAs
    rw [text, ← hl.bytes_eq]
    obtain ⟨b, bs, hbytes, -⟩ := l.bytes_eq_cons
    exact .of_forall (by simp [hbytes]) fun b hb => (l.bounds_of_mem_bytes b hb).1
  | .string s => oneLine_quote s
  | .array (v :: vs) => by
    show OneLine (0x5B :: bytesOf (v.text ++ itemsText vs))
    rw [bytesOf_append]
    exact .cons (by decide) (.append (Value.oneLine_text v).printable (Value.oneLine_items vs))
  | .object ((key, v) :: vs) => by
    show OneLine (0x7B :: bytesOf (quote key ++ ':' :: v.text ++ membersText vs))
    rw [bytesOf_append]
    exact .cons (by decide) (.append (oneLine_member key (Value.oneLine_text v)).printable
      (Value.oneLine_members vs))

theorem Value.oneLine_items : ∀ vs : List Value, OneLine (bytesOf (itemsText vs))
  | [] => .of_all (by decide) (by decide)
  | v :: vs => by
    show OneLine (0x2C :: bytesOf (v.text ++ itemsText vs))
    rw [bytesOf_append]
    exact .cons (by decide) (.append (Value.oneLine_text v).printable (Value.oneLine_items vs))

theorem Value.oneLine_members : ∀ vs : Members, OneLine (bytesOf (membersText vs))
  | [] => .of_all (by decide) (by decide)
  | (key, v) :: vs => by
    show OneLine (0x2C :: bytesOf (quote key ++ ':' :: v.text ++ membersText vs))
    rw [bytesOf_append]
    exact .cons (by decide) (.append (oneLine_member key (Value.oneLine_text v)).printable
      (Value.oneLine_members vs))

end

/-- What is printed has no control character and ends in a byte that shows. -/
theorem Value.oneLine_print (v : Value) : OneLine v.print :=
  v.oneLine_text

end Json

/-! ## On the wire -/

/-- Sending writes a front of the frame, and all of it if it succeeds. -/
theorem exists_written_send (framing : Framing) (payload : Bytes) (d : Deadline) (l : Link) :
    ∃ sent, (send framing payload d l).2.1.written = l.written ++ sent ∧
      sent <+: framing.encode payload ∧
      ((send framing payload d l).1 = .ok () → sent = framing.encode payload) := by
  obtain ⟨left, m, events, hlead, hlast⟩ := Sending.exists_last_round d
    (framing.encode payload).length (framing.encode payload) l
  have hfilling : Link.Filling (framing.encode payload) left l m :=
    hlead.invariant (I := fun left m => Link.Filling (framing.encode payload) left l m)
      (fun hround h => h.again hround)
      ⟨⟨[], (List.append_nil _).symm, rfl⟩, .refl _ l⟩
  obtain ⟨sent, hwritten, hframe⟩ := hfilling.written
  obtain ⟨hsame, hends⟩ := Sending.step_ended hlast
  refine ⟨sent, hsame.trans hwritten, ⟨left, hframe⟩, fun hok => ?_⟩
  rw [show (Sending.run d (framing.encode payload).length (framing.encode payload) l).1 = .ok ()
    from hok] at hends
  cases hends with
  | sent hleft => rw [← hframe, hleft, List.append_nil]

namespace Bytes.OneLine

variable {payload : Bytes}

/-- The one line feed of the frame ends it. -/
theorem count_encode (h : OneLine payload) :
    (Framing.newline.encode payload).count lineFeed = 1 := by
  rw [Framing.encode, List.count_append, List.count_eq_zero_of_not_mem h.lineFeed_notMem]
  rfl

/-- The frame, with anything after it, is received as the payload. -/
theorem receive (h : OneLine payload) {limit : Nat} (hlimit : payload.length ≤ limit)
    {d : Deadline} {r : Link} {rest : Bytes}
    (hr : r.arrivals = Framing.newline.encode payload ++ rest)
    (hprompt : Receiving.Prompt limit d (.start .newline) r) :
    (receive .newline limit d r).1 = .ok payload := by
  have hline : r.arrivals.line = payload := by
    rw [hr, Framing.encode, List.append_assoc, line_append_of_notMem h.lineFeed_notMem]
    exact List.append_nil payload
  obtain ⟨s, m, -, hsound, harrivals, -, -, hends⟩ := Receiving.exists_ends_of_prompt hprompt
  cases s with
  | header got => exact hsound.elim
  | body size got => exact hsound.elim
  | line taken =>
    have hcases := Receiving.ends_line hsound hends
    rw [show taken ++ m.arrivals = r.arrivals from harrivals.symm, hline] at hcases
    rcases hcases with ⟨size, hlt, hle, -⟩ | ⟨-, -, hok⟩ | ⟨-, hno, -⟩
    · omega
    · rw [hok, h.trimEnd_eq]
    · simp [hr, Framing.encode] at hno

end Bytes.OneLine

/-- Compact payloads make newline framing unambiguous. The payload of any body that is taken has
at least a byte, none below the space, and none to shed at its end, so no line feed is reported in
it. Its frame has one line feed, at the end. Whatever sending it writes is a front of that frame,
all of it if sending succeeds, as it does over a link that accepts some of every offer and holds
nothing up. And a link that gives the frame, cut anywhere, and that holds nothing up either, has
it received as exactly the payload within any limit that admits the payload. -/
theorem compact_oneLine {body payload : Bytes} {framing : Framing} {events : List Event}
    (h : Payload.prepare body .compact framing = (.ok payload, events)) :
    payload ≠ [] ∧ (∀ b ∈ payload, 0x20 ≤ b) ∧ (∀ b ∈ payload.getLast?, Bytes.isBlank b = false) ∧
    .delimiterInBody ∉ events ∧
    (Framing.newline.encode payload).count lineFeed = 1 ∧
    (Framing.newline.encode payload).getLast? = some lineFeed ∧
    (∀ d l, ∃ sent, (send .newline payload d l).2.1.written = l.written ++ sent ∧
      sent <+: Framing.newline.encode payload ∧
      ((send .newline payload d l).1 = .ok () → sent = Framing.newline.encode payload) ∧
      (l.Accepting → Sending.Prompt d (Framing.newline.encode payload).length
        (Framing.newline.encode payload) l → (send .newline payload d l).1 = .ok ())) ∧
    ∀ limit d (r : Link) rest, payload.length ≤ limit →
      r.arrivals = Framing.newline.encode payload ++ rest →
      Receiving.Prompt limit d (.start .newline) r →
      (receive .newline limit d r).1 = .ok payload := by
  have htakes : Payload.Takes .compact body payload := by
    rw [← Payload.ofBody_eq_ok_iff, ← Payload.prepare_fst body .compact framing, h]
  obtain ⟨v, hv, rfl⟩ := htakes
  have hline := v.oneLine_print
  have hevents : events = [] := by
    simp only [Payload.prepare, Payload.ofBody, hv, Payload.delimiterEvents] at h
    simpa [hline.lineFeed_notMem] using (Prod.mk.inj h).2.symm
  refine ⟨hline.ne_nil, hline.printable, hline.getLast?_not_isBlank, by simp [hevents],
    hline.count_encode, by simp [Framing.encode], fun d l => ?_,
    fun limit d r rest hlimit hr hprompt => hline.receive hlimit hr hprompt⟩
  obtain ⟨sent, hwritten, hfront, hall⟩ := exists_written_send .newline v.print d l
  exact ⟨sent, hwritten, hfront, hall, fun hl hprompt => (Sending.run_of_accepting hprompt hl).1⟩

/-- An object whose text goes over two lines and whose one string has a line feed in it. -/
def twoLines : Bytes :=
  [0x7B, 0x22, 0x61, 0x22, 0x3A, 0x0A, 0x22, 0x62, 0x5C, 0x6E, 0x22, 0x7D]

/-- A link that gives it without the line feed between its tokens, cut in two, in a frame. -/
def cutLine : Link where
  reads := [{ result := .ok [0x7B, 0x22, 0x61, 0x22, 0x3A, 0x22] },
    { delay := 2, result := .ok [0x62, 0x5C, 0x6E, 0x22, 0x7D, 0x0A] }]

theorem compact_oneLine_twoLines :
    (Payload.prepare twoLines .compact .newline).1 =
      .ok [0x7B, 0x22, 0x61, 0x22, 0x3A, 0x22, 0x62, 0x5C, 0x6E, 0x22, 0x7D] ∧
    Receiving.Prompt 11 ⟨10, "waiting for reply"⟩ (.start .newline) cutLine ∧
    (receive .newline 11 ⟨10, "waiting for reply"⟩ cutLine).1 =
      .ok [0x7B, 0x22, 0x61, 0x22, 0x3A, 0x22, 0x62, 0x5C, 0x6E, 0x22, 0x7D] := by
  have hprepare : Payload.prepare twoLines .compact .newline =
      (.ok [0x7B, 0x22, 0x61, 0x22, 0x3A, 0x22, 0x62, 0x5C, 0x6E, 0x22, 0x7D], []) := by
    decide +kernel
  have hprompt : Receiving.Prompt 11 ⟨10, "waiting for reply"⟩ (.start .newline) cutLine :=
    Link.Punctual.prompt_receiving ⟨by decide, by decide⟩ _ _
  obtain ⟨-, -, -, -, -, -, -, hreceived⟩ := compact_oneLine hprepare
  exact ⟨by rw [hprepare], hprompt, hreceived 11 _ cutLine [] (by decide) (by decide) hprompt⟩

end FramedRelay
