import FramedRelay.Proofs.Http.Admission
import FramedRelay.Proofs.Json.Kept
import FramedRelay.Proofs.Json.Reading

/-!
# Compact payloads are the same value

A body that is compacted is read as a value and printed. What is read matches what the body denotes,
and what the payload denotes matches what is printed, so the payload denotes the value of the body,
with numbers that are kept (`compact_matches`).

Not every number stays what it is: an integer beyond 64 bits is rounded (`compact_not_exact`).
-/

namespace FramedRelay

open Json

/-- A compact payload denotes the same JSON value as the body: the same kind of value at every
position, the same items in the same order, the same keys with the same values, the last one of
those with one key, the same strings, and numbers as they are kept. What an object stands for whose
first key stands for embedded text is left open. -/
theorem compact_matches {body payload : Bytes} {framing : Framing} {events : List Event}
    (h : Payload.prepare body .compact framing = (.ok payload, events)) :
    ∃ t u, Denotes body t ∧ Denotes payload u ∧
      t.MatchesExcept Value.IsEmbedded Literal.Kept u := by
  have htakes : Payload.Takes .compact body payload := by
    rw [← Payload.ofBody_eq_ok_iff, ← Payload.prepare_fst body .compact framing, h]
  obtain ⟨v, hv, rfl⟩ := htakes
  obtain ⟨t, hbody, hread⟩ := exists_denotes_of_read hv
  obtain ⟨u, hpayload, hprinted⟩ := v.denotes_print
  refine ⟨t, u, hbody, hpayload, (hread.trans hprinted).mono ?_⟩
  rintro l l' ⟨x, hkeeps, hprints⟩
  exact hkeeps.kept hprints

/-- An object with a key that comes twice, an escape and a fraction:
`{"b":2,"a":"\u0041","b":1.50}`. -/
def unordered : Bytes :=
  [0x7B, 0x22, 0x62, 0x22, 0x3A, 0x32, 0x2C,
    0x22, 0x61, 0x22, 0x3A, 0x22, 0x5C, 0x75, 0x30, 0x30, 0x34, 0x31, 0x22, 0x2C,
    0x22, 0x62, 0x22, 0x3A, 0x31, 0x2E, 0x35, 0x30, 0x7D]

/-- Its payload: `{"a":"A","b":1.5}`. -/
def ordered : Bytes :=
  [0x7B, 0x22, 0x61, 0x22, 0x3A, 0x22, 0x41, 0x22, 0x2C,
    0x22, 0x62, 0x22, 0x3A, 0x31, 0x2E, 0x35, 0x7D]

theorem compact_matches_unordered :
    Payload.prepare unordered .compact .newline = (.ok ordered, []) ∧
    ∃ t u, Denotes unordered t ∧ Denotes ordered u ∧
      t.MatchesExcept Value.IsEmbedded Literal.Kept u := by
  have hprepare : Payload.prepare unordered .compact .newline = (.ok ordered, []) := by
    decide +kernel
  exact ⟨hprepare, compact_matches hprepare⟩

/-- An object that stands for embedded text becomes the value of that text. -/
example : Payload.prepare (0x7B :: bytesOf (quote embeddedKey) ++ 0x3A :: bytesOf (quote "[1]") ++
    [0x7D]) .compact .newline = (.ok (bytesOf ['[', '1', ']']), []) := by
  decide +kernel

/-! ## Numbers that change -/

/-- The integer `18446744073709551617`, which is `2 ^ 64 + 1`. -/
def beyondWord : Literal where
  negative := false
  whole := [0x31, 0x38, 0x34, 0x34, 0x36, 0x37, 0x34, 0x34, 0x30, 0x37,
    0x33, 0x37, 0x30, 0x39, 0x35, 0x35, 0x31, 0x36, 0x31, 0x37]
  fraction := []
  exponent? := none
  whole_ne_nil := by decide
  isDigit_whole := List.all_eq_true.1 rfl
  whole_eq := by decide
  isDigit_fraction := List.all_eq_true.1 rfl

/-- What is printed of it: `1.8446744073709552e19`. -/
def beyondWordRounded : Literal where
  negative := false
  whole := [0x31]
  fraction := [0x38, 0x34, 0x34, 0x36, 0x37, 0x34, 0x34, 0x30,
    0x37, 0x33, 0x37, 0x30, 0x39, 0x35, 0x35, 0x32]
  exponent? := some (printedExponent 19)
  whole_ne_nil := by decide
  isDigit_whole := List.all_eq_true.1 rfl
  whole_eq := by decide
  isDigit_fraction := List.all_eq_true.1 rfl

theorem Json.Literal.denotes_bytes (l : Literal) : Denotes l.bytes (.number l) :=
  ⟨[], by simpa using Spells.number (S := Quotes) l [], by simp⟩

/-- A compact payload does not always denote the same numbers as the body. -/
theorem compact_not_exact :
    ¬∀ (body payload : Bytes) (framing : Framing) (events : List Event),
      Payload.prepare body .compact framing = (.ok payload, events) →
      ∃ t u, Denotes body t ∧ Denotes payload u ∧
        t.Matches (fun l l' => l'.toRat = l.toRat) u := by
  intro h
  have hprepare : Payload.prepare beyondWord.bytes .compact .newline =
      (.ok beyondWordRounded.bytes, []) := by
    decide +kernel
  obtain ⟨t, u, hbody, hpayload, hmatches⟩ := h _ _ _ _ hprepare
  obtain rfl := hbody.unique beyondWord.denotes_bytes
  obtain rfl := hpayload.unique beyondWordRounded.denotes_bytes
  cases hmatches with
  | exempt h => exact h
  | number heq =>
    have hold : beyondWord.toRat = 18446744073709551617 := by
      show (18446744073709551617 : ℕ) * (10 : ℚ) ^ (0 : ℤ) = 18446744073709551617
      norm_num
    have hnew : beyondWordRounded.toRat = 18446744073709552000 := by
      show (18446744073709552 : ℕ) * (10 : ℚ) ^ (3 : ℤ) = 18446744073709552000
      norm_num
    rw [hold, hnew] at heq
    norm_num at heq

end FramedRelay
