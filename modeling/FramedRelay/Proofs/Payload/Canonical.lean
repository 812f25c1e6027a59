import FramedRelay.Proofs.Http.Admission
import FramedRelay.Proofs.Json.Kept
import FramedRelay.Proofs.Json.Readable

/-!
# Compact payloads are canonical

A body whose numbers are integers that 64 bits hold (`Literal.IsExact`), with no more than 127
brackets open at once and no key that is reserved, is compacted to the one payload that its value
has. Bodies of one value have one payload, bodies of different values have different payloads, and
the payload is its own payload (`compact_canonical`). A body has a value if it is a JSON text in
UTF-8 with paired escapes (`exists_denotes_iff`).

What is read of such a body is its value in the order in which the relay keeps it, and what is
printed of that denotes the same value again and is such a body, too
(`Value.IsExact.exists_denotes`). So all three parts come from what reading makes of a value
(`read_of_denotes`) and from the one value that a text denotes (`Denotes.unique`).
-/

namespace FramedRelay

open Json

namespace Json

/-! ## Exact numbers -/

/-- An integer written as one, that 64 bits hold with a sign or without, and no zero with a minus
sign. -/
structure Literal.IsExact (l : Literal) : Prop where
  isInteger : l.IsInteger
  ge : -2 ^ 63 ≤ l.toRat
  le : l.toRat ≤ 2 ^ 64 - 1
  ne_zero : l.negative = true → l.toRat ≠ 0

/-- The number that an integer is kept as. -/
def Literal.toNumber (l : Literal) : Number := .integer l.toRat.num

namespace Literal

variable {l l' : Literal}

theorem IsInteger.toRat_eq (h : l.IsInteger) :
    l.toRat = ((if l.negative then -l.digits else l.digits : ℤ) : ℚ) := by
  rw [toRat, h.magnitude_eq]
  split <;> simp

theorem IsInteger.num_toRat (h : l.IsInteger) :
    l.toRat.num = if l.negative then -(l.digits : ℤ) else l.digits := by
  rw [h.toRat_eq, Rat.num_intCast]

theorem IsInteger.toRat_eq_num (h : l.IsInteger) : l.toRat = l.toRat.num := by
  rw [h.num_toRat, h.toRat_eq]

/-- All bytes of an integer are read. -/
theorem IsInteger.exists_whole? (h : l.IsInteger) : ∃ n, Numeral.whole? l.bytes = some n := by
  obtain ⟨n, hwhole, -, hphase⟩ := Numeral.exists_scans_whole l []
  have hcomplete : n.phase.complete = true := by
    rcases hphase with hphase | hphase <;> rw [hphase] <;> rfl
  have hbytes : l.bytes = l.signBytes ++ (l.whole ++ []) := by
    simp [bytes, fractionBytes, exponentBytes, h.1, h.2]
  refine ⟨n, ?_⟩
  rw [hbytes, hwhole, Numeral.run?, Option.filter_some, if_pos hcomplete]

/-- An exact number is kept as the integer that it is. -/
theorem IsExact.keeps (h : l.IsExact) : l.Keeps l.toNumber := by
  obtain ⟨n, hwhole⟩ := h.isInteger.exists_whole?
  have htakes := Numeral.takes_of_whole? hwhole
  have hword : l.IsWord := h.isInteger.isWord h.ge (lt_of_le_of_lt h.le (by norm_num))
  have hinteger : n.isInteger = true := by
    by_contra hno
    exact htakes.not_isWord (by simpa using hno) hword
  have hdigits := (htakes.isInteger hinteger).2
  rw [Keeps, Numeral.read?, hwhole, Option.bind_some, toNumber, h.isInteger.num_toRat,
    Numeral.value?, hinteger, if_pos rfl, htakes.negative_eq, hdigits]
  cases hn : l.negative with
  | false => rfl
  | true =>
    have hsmall : ¬(l.digits = 0 ∨ UInt64.size / 2 < l.digits) := by
      rintro (hzero | hlarge)
      · exact h.ne_zero hn (by simp [h.isInteger.toRat_eq, hzero])
      · exact absurd (hword.2.2 hn) (not_le.2 hlarge)
    simp [hsmall]

/-- Literals that are printed for one number are one literal. -/
theorem eq_of_printedAs {n : Number} (h : n.PrintedAs l) (h' : n.PrintedAs l') : l = l' := by
  have hnil : Boundary [] := by simp [Boundary]
  exact (eq_of_bytes_append_eq hnil hnil (congrArg (· ++ []) (h.bytes_eq.trans h'.bytes_eq.symm))).1

theorem toRat_ofInt (n : ℤ) : (ofInt n).toRat = n := (Number.printedAs_ofInt n).toRat_eq

theorem isExact_ofInt {n : ℤ} (hge : -2 ^ 63 ≤ n) (hle : n ≤ 2 ^ 64 - 1) : (ofInt n).IsExact where
  isInteger := ⟨rfl, rfl⟩
  ge := by
    rw [toRat_ofInt]
    exact_mod_cast hge
  le := by
    rw [toRat_ofInt]
    exact_mod_cast hle
  ne_zero hn := by
    have hlt : n < 0 := by simpa [ofInt] using hn
    rw [toRat_ofInt]
    exact_mod_cast hlt.ne

/-- What is printed of an exact number is the same number, and exact. -/
theorem IsExact.of_printedAs (h : l.IsExact) (h' : l.toNumber.PrintedAs l') :
    l'.IsExact ∧ l.toRat = l'.toRat := by
  obtain rfl := eq_of_printedAs h' (Number.printedAs_ofInt l.toRat.num)
  have hnum := h.isInteger.toRat_eq_num
  have hge := h.ge
  have hle := h.le
  rw [hnum] at hge hle
  exact ⟨isExact_ofInt (by exact_mod_cast hge) (by exact_mod_cast hle),
    hnum.trans (toRat_ofInt _).symm⟩

end Literal

/-! ## Exact values -/

/-- The numbers of a value are exact, no key of it is reserved, and no more than 127 brackets are
open at once. -/
def Value.IsExact (t : Value Literal) : Prop :=
  t.Within Literal.IsExact (· ≠ embeddedKey) 127

variable {t u : Value Literal} {body : Bytes}

theorem Value.IsExact.read (h : t.IsExact) (hbody : Denotes body t) :
    read body = .ok (t.ordered Literal.toNumber) :=
  read_of_denotes hbody (h.mono fun _ hl => hl.keeps) (by decide)

/-- What is printed of an exact value is the same value, and exact. -/
theorem Value.IsExact.exists_denotes (h : t.IsExact) :
    ∃ u : Value Literal, Denotes (t.ordered Literal.toNumber).print u ∧ u.IsExact ∧
      t.Matches (fun l l' => l.toRat = l'.toRat) u := by
  choose f hf using Number.exists_printedAs
  have hordered : (t.ordered Literal.toNumber).Within
      (fun n => ∃ l : Literal, l.IsExact ∧ n = l.toNumber) (· ≠ embeddedKey) 127 :=
    Value.Within.mapWith (fun _ _ hm => Members.mem_of_mem_ofList hm) h fun l hl => ⟨l, hl, rfl⟩
  have hexact : ((t.ordered Literal.toNumber).map f).IsExact := by
    refine Value.Within.mapWith (fun _ _ hm => hm) hordered ?_
    rintro n ⟨l, hl, rfl⟩
    exact (hl.of_printedAs (hf _)).1
  refine ⟨_, Value.denotes_print_map hf _, hexact, ?_⟩
  have hmatches := (t.matches_ordered Literal.toNumber).trans (Value.matches_map f _)
  refine (hmatches.within h hexact).mono ?_
  rintro l _ ⟨⟨_, rfl, rfl⟩, hl, -⟩
  exact (hl.of_printedAs (hf _)).2

/-- Values that match up to how their numbers are written are read as one. -/
theorem Value.ordered_toNumber_eq (h : t.Matches (fun l l' => l.toRat = l'.toRat) u) :
    t.ordered Literal.toNumber = u.ordered Literal.toNumber :=
  Value.MatchesExcept.ordered_eq (h.mono fun l l' heq => by rw [Literal.toNumber, heq]; rfl)

end Json

theorem Payload.prepare_compact {body : Bytes} {v : Value} (h : read body = .ok v)
    (framing : Framing) : (prepare body .compact framing).1 = .ok v.print := by
  rw [prepare_fst, ofBody, h]

/-- Exact bodies are compacted, and what they are compacted to stays as it is when it is compacted
again. The payloads of two of them are equal if they denote the same value: the same kind of value
at every position, the same items in the same order, the same keys with the same values, the last
one of those with one key, the same strings, and the same numbers. Otherwise they are not. -/
theorem compact_canonical {body body' : Bytes} {t t' : Value Literal} (h : Denotes body t)
    (h' : Denotes body' t') (hexact : t.IsExact) (hexact' : t'.IsExact) :
    ∃ payload payload' : Bytes,
      (∀ framing, (Payload.prepare body .compact framing).1 = .ok payload ∧
        (Payload.prepare body' .compact framing).1 = .ok payload' ∧
        (Payload.prepare payload .compact framing).1 = .ok payload ∧
        (Payload.prepare payload' .compact framing).1 = .ok payload') ∧
      (t.Matches (fun l l' => l.toRat = l'.toRat) t' ↔ payload = payload') := by
  obtain ⟨u, hu, huexact, hmatches⟩ := hexact.exists_denotes
  obtain ⟨u', hu', huexact', hmatches'⟩ := hexact'.exists_denotes
  refine ⟨_, _, fun framing => ⟨Payload.prepare_compact (hexact.read h) framing,
    Payload.prepare_compact (hexact'.read h') framing, ?_, ?_⟩, fun heq => ?_, fun heq => ?_⟩
  · rw [Payload.prepare_compact (huexact.read hu), Value.ordered_toNumber_eq hmatches]
  · rw [Payload.prepare_compact (huexact'.read hu'), Value.ordered_toNumber_eq hmatches']
  · rw [Value.ordered_toNumber_eq heq]
  · obtain rfl := hu.unique (heq ▸ hu')
    refine (hmatches.trans hmatches'.symm).mono ?_
    rintro l l' ⟨_, hl, hl'⟩
    exact hl.trans hl'.symm

/-- An object with a key that comes twice, once with an escape, and with a blank:
`{"b":0, "a":[],"\u0062":-2}`. -/
def scattered : Bytes :=
  [0x7B, 0x22, 0x62, 0x22, 0x3A, 0x30, 0x2C,
    0x20, 0x22, 0x61, 0x22, 0x3A, 0x5B, 0x5D, 0x2C,
    0x22, 0x5C, 0x75, 0x30, 0x30, 0x36, 0x32, 0x22, 0x3A, 0x2D, 0x32, 0x7D]

def scatteredValue : Value Literal :=
  .object [("b", .number (.ofInt 0)), ("a", .array []), ("b", .number (.ofInt (-2)))]

/-- The payload of the same value: `{"a":[],"b":-2}`. -/
def gathered : Bytes :=
  [0x7B, 0x22, 0x61, 0x22, 0x3A, 0x5B, 0x5D, 0x2C,
    0x22, 0x62, 0x22, 0x3A, 0x2D, 0x32, 0x7D]

def gatheredValue : Value Literal :=
  .object [("a", .array []), ("b", .number (.ofInt (-2)))]

theorem compact_canonical_scattered :
    Denotes scattered scatteredValue ∧ Denotes gathered gatheredValue ∧
    scatteredValue.IsExact ∧ gatheredValue.IsExact ∧
    (Payload.prepare scattered .compact .newline).1 = .ok gathered ∧
    scatteredValue.Matches (fun l l' => l.toRat = l'.toRat) gatheredValue := by
  have ha : Quotes [0x61] "a" := .byte (by decide) (by decide) (by decide) .nil
  have hb : Quotes [0x62] "b" := .byte (by decide) (by decide) (by decide) .nil
  have hunit : IsUnit [0x30, 0x30, 0x36, 0x32] 0x62 := ⟨rfl, List.all_eq_true.1 rfl, rfl⟩
  have hescaped : Quotes [0x5C, 0x75, 0x30, 0x30, 0x36, 0x32] "b" :=
    .unit hunit (by simp [IsLead]) (by simp [IsTrail]) .nil
  have hscattered : Denotes scattered scatteredValue :=
    ⟨[], .object (.firstMember rfl (.member hb (.colon (.number (.ofInt 0) _)))
      (.nextMember (.space rfl (.member ha (.colon (.array (.noItems _)))))
        (.nextMember (.member hescaped (.colon (.number (.ofInt (-2)) [0x7D]))) (.endMembers _)))),
      by simp⟩
  have hgathered : Denotes gathered gatheredValue :=
    ⟨[], .object (.firstMember rfl (.member ha (.colon (.array (.noItems _))))
      (.nextMember (.member hb (.colon (.number (.ofInt (-2)) [0x7D]))) (.endMembers _))), by simp⟩
  have hzero : Literal.IsExact (.ofInt 0) := Literal.isExact_ofInt (by decide) (by decide)
  have hminus : Literal.IsExact (.ofInt (-2)) := Literal.isExact_ofInt (by decide) (by decide)
  have hscatteredExact : scatteredValue.IsExact := by
    refine .object (by decide) ?_
    simpa using ⟨.number _ hzero, .array (by simp), .number _ hminus⟩
  have hgatheredExact : gatheredValue.IsExact := by
    refine .object (by decide) ?_
    simpa using ⟨.array (by simp), .number _ hminus⟩
  have hprepare : (Payload.prepare scattered .compact .newline).1 = .ok gathered ∧
      (Payload.prepare gathered .compact .newline).1 = .ok gathered := by
    decide +kernel
  obtain ⟨payload, payload', hpayloads, hiff⟩ :=
    compact_canonical hscattered hgathered hscatteredExact hgatheredExact
  obtain ⟨hpayload, hpayload', -⟩ := hpayloads .newline
  have heq : payload = payload' :=
    (Except.ok.inj (hpayload.symm.trans hprepare.1)).trans
      (Except.ok.inj (hprepare.2.symm.trans hpayload'))
  exact ⟨hscattered, hgathered, hscatteredExact, hgatheredExact, hprepare.1, hiff.2 heq⟩

end FramedRelay
