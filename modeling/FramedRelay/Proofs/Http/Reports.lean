import FramedRelay.Http.Response
import FramedRelay.Proofs.Failure
import FramedRelay.Proofs.Json.Printing

/-!
# Answers that report a failure

The body of such an answer is a JSON text of an object whose only member, `error`, is the message,
whatever characters are in it (`Http.denotes_ofFailure`). Since a text denotes one value and a
message tells its failure, a caller who reads the body knows which failure it was
(`failures_recoverable`).
-/

namespace FramedRelay

open Json (Denotes Literal Value)

/-- The value that reports a failure. -/
def Failure.report (f : Failure) : Value Literal := .object [("error", .string f.message)]

namespace Http

/-- What is printed of a failure is a JSON text of its report. -/
theorem denotes_ofFailure (f : Failure) : Denotes (Response.ofFailure f).body f.report := by
  choose g hprinted using Json.Number.exists_printedAs
  exact Value.denotes_print_map hprinted (.object [("error", .string f.message)])

/-- Different failures have different answers. -/
theorem ofFailure_injective {f g : Failure}
    (h : (Response.ofFailure f).body = (Response.ofFailure g).body) : f = g := by
  have hf := denotes_ofFailure f
  rw [h] at hf
  have hreport : f.report = g.report := hf.unique (denotes_ofFailure g)
  simp only [Failure.report, Value.object.injEq, List.cons.injEq, Prod.mk.injEq,
    Value.string.injEq, true_and, and_true] at hreport
  exact Failure.message_injective hreport

end Http

/-- A failure can be recovered from its message, and from the answer that reports it. The answer has
status 500 and is JSON; its body denotes an object whose only member, `error`, is the message, and
nothing else; and no other failure has the same body. -/
theorem failures_recoverable :
    (∀ f g : Failure, f.message = g.message → f = g) ∧
    ∀ f : Failure, (Http.Response.ofFailure f).status = 500 ∧
      (Http.Response.ofFailure f).headers = [("content-type", "application/json")] ∧
      (∀ t, Denotes (Http.Response.ofFailure f).body t ↔
        t = .object [("error", .string f.message)]) ∧
      ∀ g : Failure,
        (Http.Response.ofFailure g).body = (Http.Response.ofFailure f).body → g = f := by
  refine ⟨fun f g h => Failure.message_injective h, fun f => ⟨rfl, rfl, fun t => ⟨fun h => ?_, ?_⟩,
    fun g h => Http.ofFailure_injective h⟩⟩
  · exact h.unique (Http.denotes_ofFailure f)
  · rintro rfl
    exact Http.denotes_ofFailure f

end FramedRelay
