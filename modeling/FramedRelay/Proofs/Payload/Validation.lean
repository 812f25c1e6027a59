import FramedRelay.Proofs.Http.Admission
import FramedRelay.Proofs.Json.Printing
import FramedRelay.Proofs.Json.Reading
import FramedRelay.Proofs.Json.Skimming

/-!
# What the modes take

Validation takes exactly the JSON texts, and takes them as they are; what it refuses is what is
passed through with a note (`validation_exact`). Compaction reads with more care, so what it takes
is a JSON text too, and what it makes of it is one again (`validation_of_compaction`). The two
readers have nothing in common but the grammar, which is where they meet.
-/

namespace FramedRelay

open Json

namespace Payload

variable {body : Bytes}

/-- Both modes that only check do what the grammar says. -/
theorem ofBody_of_isText (h : IsText body) :
    ofBody .validate body = (.ok body, []) ∧ ofBody .passthrough body = (.ok body, []) := by
  rw [← skim_eq_ok_iff] at h
  simp [ofBody, h]

theorem exists_ofBody_of_not_isText (h : ¬IsText body) :
    ∃ e : Json.Error, ofBody .validate body = (.error (notJson e), []) ∧
      ofBody .passthrough body = (.ok body, [.bodyNotJson e.message]) := by
  rw [← skim_eq_ok_iff] at h
  cases hskim : skim body with
  | ok => exact absurd hskim h
  | error e => exact ⟨e, by simp [ofBody, hskim], by simp [ofBody, hskim]⟩

theorem bodyNotJson_notMem_delimiterEvents (framing : Framing) (payload : Bytes)
    (reason : String) : .bodyNotJson reason ∉ delimiterEvents framing payload := by
  unfold delimiterEvents
  split <;> simp

end Payload

/-- Validation takes a body if it is one JSON text, unchanged, and finds every other body malformed.
Passing through takes every body unchanged, and notes for what reason it is no JSON text exactly
where validation refuses it for that reason. -/
theorem validation_exact (body : Bytes) (framing framing' : Framing) :
    ((Payload.prepare body .validate framing).1 = .ok body ↔ IsText body) ∧
    ((∃ reason, (Payload.prepare body .validate framing).1 =
      .error (.malformedInput ("invalid JSON: " ++ reason))) ↔ ¬IsText body) ∧
    (Payload.prepare body .passthrough framing').1 = .ok body ∧
    ∀ reason, .bodyNotJson reason ∈ (Payload.prepare body .passthrough framing').2 ↔
      (Payload.prepare body .validate framing).1 =
        .error (.malformedInput ("invalid JSON: " ++ reason)) := by
  have hdelimiter := Payload.bodyNotJson_notMem_delimiterEvents framing' body
  by_cases h : IsText body
  · obtain ⟨hvalidate, hpass⟩ := Payload.ofBody_of_isText h
    simp [Payload.prepare, hvalidate, hpass, h, hdelimiter]
  · obtain ⟨e, hvalidate, hpass⟩ := Payload.exists_ofBody_of_not_isText h
    simp [Payload.prepare, hvalidate, hpass, h, hdelimiter, Payload.notJson, eq_comm]

/-- A body that compaction takes is one that validation takes, and so is its payload. -/
theorem validation_of_compaction {body payload : Bytes} {framing : Framing}
    (h : (Payload.prepare body .compact framing).1 = .ok payload) (framing' : Framing) :
    (Payload.prepare body .validate framing').1 = .ok body ∧
    (Payload.prepare payload .validate framing').1 = .ok payload := by
  have hvalidate : ∀ {bs : Bytes}, IsText bs → (Payload.prepare bs .validate framing').1 = .ok bs :=
    fun htext => by rw [Payload.prepare_fst, (Payload.ofBody_of_isText htext).1]
  have htakes : Payload.Takes .compact body payload := by
    rw [← Payload.ofBody_eq_ok_iff, ← Payload.prepare_fst body .compact framing, h]
  obtain ⟨v, hread, rfl⟩ := htakes
  obtain ⟨t, hbody, -⟩ := exists_denotes_of_read hread
  obtain ⟨u, hpayload, -⟩ := v.denotes_print
  exact ⟨hvalidate hbody.isText, hvalidate hpayload.isText⟩

/-- An object that stands for the value in its text, with blanks around it: `[1e2]`. -/
def embedding : Bytes :=
  0x7B :: bytesOf (quote embeddedKey) ++ 0x3A :: bytesOf (quote "[ 1e2 ]") ++ [0x7D]

theorem validation_of_compaction_embedding :
    (Payload.prepare embedding .compact .newline).1 = .ok (bytesOf "[100.0]".toList) ∧
    (Payload.prepare embedding .validate .newline).1 = .ok embedding ∧
    (Payload.prepare (bytesOf "[100.0]".toList) .validate .newline).1 =
      .ok (bytesOf "[100.0]".toList) := by
  have h : (Payload.prepare embedding .compact .newline).1 = .ok (bytesOf "[100.0]".toList) := by
    decide +kernel
  exact ⟨h, validation_of_compaction h .newline⟩

end FramedRelay
