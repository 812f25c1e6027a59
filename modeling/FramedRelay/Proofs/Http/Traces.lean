import FramedRelay.Proofs.Http.Admission

/-!
# Failures in the log

A request that fails leaves an error among the events (`Traced`), whatever it fails of: the length
it announces, a body that breaks off or is too long, a body that the JSON mode does not take, or
forwarding. The one exception is a body that ends before the announced length
(`Request.FallsShort`), which is refused without a word. `failures_traced_iff` says so of all
requests, by themselves and between others.
-/

namespace FramedRelay.Http

/-- An error is reported. -/
def Traced (events : List Event) : Prop := ∃ e ∈ events, e.level = .error

theorem not_traced_nil : ¬Traced [] := by
  rintro ⟨e, he, -⟩
  cases he

theorem traced_of_mem {events : List Event} {e : Event} (he : e ∈ events)
    (hlevel : e.level = .error) : Traced events :=
  ⟨e, he, hlevel⟩

theorem Traced.append_right {events : List Event} (h : Traced events) (before : List Event) :
    Traced (before ++ events) := by
  obtain ⟨e, he, hlevel⟩ := h
  exact ⟨e, List.mem_append_right before he, hlevel⟩

namespace Request

variable {r : Request} {c : Config} {limit : Nat} {f : Failure}

/-- The body ends before the length that is announced, which is within the limit. -/
def FallsShort (limit : Nat) (r : Request) : Prop :=
  ∃ n body, r.announced? = some n ∧ n ≤ limit ∧ r.Holds body ∧ body.length < n

/-- So the whole body is never read. -/
theorem FallsShort.wholeBody (h : r.FallsShort limit) :
    ∃ f, (r.wholeBody limit).1 = .error f := by
  obtain ⟨n, part, hn, hlimit, hpart, hshort⟩ := h
  rw [wholeBody_of_announced hn hlimit hpart, if_neg hshort.ne, if_pos hshort]
  exact ⟨_, rfl⟩

theorem not_fallsShort_of_wholeBody {body : Bytes} (h : (r.wholeBody limit).1 = .ok body) :
    ¬r.FallsShort limit := by
  intro hshort
  obtain ⟨f, hf⟩ := hshort.wholeBody
  cases h.symm.trans hf

/-- A body that cannot be read whole leaves a trace unless it falls short. -/
theorem traced_wholeBody_iff (h : (r.wholeBody limit).1 = .error f) :
    Traced (r.wholeBody limit).2 ↔ ¬r.FallsShort limit := by
  unfold wholeBody at h ⊢
  split at h
  · next g hlength =>
    refine iff_of_true (traced_of_mem List.mem_cons_self rfl) ?_
    rintro ⟨n, body, hn, hlimit, -⟩
    cases hlength.symm.trans (contentLength_eq_ok_iff.2 ⟨hn, hlimit⟩)
  · next length hlength =>
    split at h
    · next e hread =>
      refine iff_of_true (traced_of_mem List.mem_cons_self rfl) ?_
      rintro ⟨n, body, hn, hlimit, ⟨parts, hparts, rfl⟩, hshort⟩
      obtain rfl : length = n :=
        Except.ok.inj (hlength.symm.trans (contentLength_eq_ok_iff.2 ⟨hn, hlimit⟩))
      rw [hparts, readBody_data, if_pos hshort.le] at hread
      cases hread
    · next body hread =>
      obtain ⟨hn, hlimit⟩ := contentLength_eq_ok_iff.1 hlength
      obtain ⟨parts, hparts, rfl⟩ := exists_parts_of_readBody hread
      rw [hparts, readBody_data] at hread
      split at hread
      · next hle =>
        split at h
        · cases h
        · next hne =>
          simp only [if_neg hne]
          exact iff_of_false not_traced_nil fun hnot => hnot
            ⟨length, _, hn, hlimit, ⟨parts, hparts, rfl⟩, Nat.lt_of_le_of_ne hle hne⟩
      · cases hread

theorem not_fallsShort_of_toPayload {payload : Bytes} (h : (r.toPayload c).1 = .ok payload) :
    ¬r.FallsShort c.maxRequestBytes := by
  rw [toPayload_fst] at h
  obtain ⟨body, hbody, -⟩ := Except.bind_ok h
  exact not_fallsShort_of_wholeBody hbody

/-- A request without a payload leaves a trace unless its body falls short. -/
theorem traced_toPayload_iff (h : (r.toPayload c).1 = .error f) :
    Traced (r.toPayload c).2 ↔ ¬r.FallsShort c.maxRequestBytes := by
  unfold toPayload at h ⊢
  rcases hwhole : r.wholeBody c.maxRequestBytes with ⟨g | body, events⟩
  · have hbody := traced_wholeBody_iff (r := r) (congrArg Prod.fst hwhole)
    rwa [hwhole] at hbody
  · rw [hwhole] at h
    refine iff_of_true ?_ (not_fallsShort_of_wholeBody (congrArg Prod.fst hwhole))
    rcases hprepare : Payload.prepare body c.jsonMode c.framing with ⟨g | payload, later⟩
    · simp only [hprepare]
      exact traced_of_mem (List.mem_append_right _ List.mem_cons_self) rfl
    · simp only [hprepare] at h
      cases h

end Request

section Service

variable {r : Request} {c : Config} {n : Nat} {response : Response} {payload : Bytes}

/-- A request is answered with a failure at once only if it is to be forwarded and has no
payload. -/
theorem begin_cases (c : Config) (n : Nat) (r : Request) :
    (∃ response events, begin c n r = (.respond response, events) ∧ response.status ≠ 500) ∨
    (∃ f events, r.toPayload c = (.error f, events) ∧
      begin c n r = (.respond ((Response.ofFailure f).complete r.method), events)) ∨
    ∃ payload events, r.toPayload c = (.ok payload, events) ∧
      begin c n r = (.forward payload, events) := by
  unfold begin
  cases route r.method r.path with
  | health => exact Or.inl ⟨_, _, rfl, show 200 ≠ 500 by decide⟩
  | notAllowed allowed => exact Or.inl ⟨_, _, rfl, show 405 ≠ 500 by decide⟩
  | notFound => exact Or.inl ⟨_, _, rfl, show 404 ≠ 500 by decide⟩
  | forward =>
    rcases r.toPayload c with ⟨f | payload, events⟩
    · exact Or.inr (Or.inl ⟨f, events, rfl, rfl⟩)
    · exact Or.inr (Or.inr ⟨payload, events, rfl, rfl⟩)

theorem traced_begin_iff (h : (begin c n r).1 = .respond response)
    (hstatus : response.status = 500) :
    Traced (begin c n r).2 ↔ ¬r.FallsShort c.maxRequestBytes := by
  obtain ⟨answer, events, heq, hother⟩ | ⟨f, events, hpayload, heq⟩ | ⟨payload, events, -, heq⟩ :=
    begin_cases c n r
  · rw [heq] at h
    obtain rfl := Verdict.respond.inj h
    exact absurd hstatus hother
  · have htraced := Request.traced_toPayload_iff (congrArg Prod.fst hpayload)
    rw [hpayload] at htraced
    rw [heq]
    exact htraced
  · rw [heq] at h
    cases h

theorem not_fallsShort_of_begin (h : (begin c n r).1 = .forward payload) :
    ¬r.FallsShort c.maxRequestBytes := by
  obtain ⟨answer, events, heq, -⟩ | ⟨f, events, -, heq⟩ | ⟨payload', events, hpayload, -⟩ :=
    begin_cases c n r
  · rw [heq] at h
    cases h
  · rw [heq] at h
    cases h
  · exact Request.not_fallsShort_of_toPayload (congrArg Prod.fst hpayload)

/-- What comes of forwarding leaves a trace if it is a failure. -/
theorem traced_conclude (result : Except Failure Bytes)
    (hstatus : (conclude r result).1.status = 500) : Traced (conclude r result).2 := by
  cases result with
  | ok reply => cases hstatus
  | error f => exact traced_of_mem List.mem_cons_self rfl

theorem traced_handle_iff {attempts : List Attempt}
    (hstatus : (handle c n attempts r).1.status = 500) :
    Traced (handle c n attempts r).2 ↔ ¬r.FallsShort c.maxRequestBytes := by
  unfold handle at hstatus ⊢
  rcases hbegin : begin c n r with ⟨response | payload, events⟩
  · rw [hbegin] at hstatus
    have htraced := traced_begin_iff (congrArg Prod.fst hbegin) hstatus
    rwa [hbegin] at htraced
  · rw [hbegin] at hstatus
    have hnot := not_fallsShort_of_begin (congrArg Prod.fst hbegin)
    exact iff_of_true ((traced_conclude _ hstatus).append_right _) hnot

end Service

/-- A request that fails leaves an error among the events if and only if its body does not end
before the length that is announced: by itself, and also between others, when it is answered at
once or after it was forwarded. -/
theorem failures_traced_iff (c : Config) (r : Request) :
    (∀ n attempts, (handle c n attempts r).1.status = 500 →
      (Traced (handle c n attempts r).2 ↔ ¬r.FallsShort c.maxRequestBytes)) ∧
    (∀ n response, (begin c n r).1 = .respond response → response.status = 500 →
      (Traced (begin c n r).2 ↔ ¬r.FallsShort c.maxRequestBytes)) ∧
    ∀ n payload, (begin c n r).1 = .forward payload → ¬r.FallsShort c.maxRequestBytes ∧
      ∀ result, (conclude r result).1.status = 500 → Traced (conclude r result).2 :=
  ⟨fun _ _ => traced_handle_iff, fun _ _ => traced_begin_iff,
    fun _ _ h => ⟨not_fallsShort_of_begin h, traced_conclude⟩⟩

/-- A body that breaks off where five bytes are announced. -/
def brokenRequest : Request where
  headers := [("content-length", [0x35])]
  body := [.data [0x61, 0x62, 0x63], .fault "reset"]

/-- It does not fall short, and leaves a trace. -/
theorem failures_traced_iff_brokenRequest :
    (handle defaultConfig 0 [] brokenRequest).1.status = 500 ∧
      Traced (handle defaultConfig 0 [] brokenRequest).2 := by
  have hstatus : (handle defaultConfig 0 [] brokenRequest).1.status = 500 := by decide +kernel
  refine ⟨hstatus, ((failures_traced_iff defaultConfig brokenRequest).1 _ _ hstatus).2 ?_⟩
  rintro ⟨n, body, hn, hlimit, ⟨parts, hparts, rfl⟩, hshort⟩
  have hfault : Piece.fault "reset" ∈ brokenRequest.body := by decide
  rw [hparts] at hfault
  simp at hfault

/-- A body of three bytes where five are announced. -/
def shortRequest : Request where
  headers := [("content-length", [0x35])]
  body := [.data [0x61, 0x62, 0x63]]

/-- It is refused, and no event says so. -/
theorem not_traced_shortRequest :
    ¬∀ (c : Config) (n : Nat) (attempts : List Attempt) (r : Request), r.method = "POST" →
      (handle c n attempts r).1.status = 500 → Traced (handle c n attempts r).2 := by
  intro h
  have hevents : (handle defaultConfig 0 [] shortRequest).2 = [] := by decide +kernel
  exact not_traced_nil (hevents ▸ h defaultConfig 0 [] shortRequest rfl (by decide +kernel))

end FramedRelay.Http
