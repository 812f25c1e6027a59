import FramedRelay.Destination
import FramedRelay.Proofs.Address.Socket

/-!
# Destinations that are written as addresses

A text is resolved exactly if it names an address (`Destination.resolve_eq_ok_iff`): it is one, or
it is a numeric host and a port with the last colon between them (`Destination.Names`).

A printed socket address is resolved as itself and nothing else, whatever blanks stand around it,
and the destination shows it as it was printed. Since an address can be told from its printed
form, different addresses give destinations that differ in everything (`printedAddress_resolves`).
-/

namespace FramedRelay

open Address (Socket)

namespace Destination

/-! ## Texts that name an address -/

/-- A printed address is not taken for a name and a port. -/
theorem resolve_text (a : Socket) : resolve a.text = .ok [a] := by
  simp only [resolve, Socket.parse?_text]

theorem tcp?_between_blanks (a : Socket) {before after : String}
    (hbefore : ∀ c ∈ before.toList, isBlankChar c = true)
    (hafter : ∀ c ∈ after.toList, isBlankChar c = true) :
    tcp? (before ++ a.display ++ after) = .ok (.tcp a.display [a]) := by
  have htrim : trimBlanks (before ++ a.display ++ after).toList = a.text := by
    rw [String.toList_append, String.toList_append, Socket.display, String.toList_ofList]
    exact trimBlanks_append hbefore (fun _ => Socket.not_isBlankChar_of_mem_text) hafter
  have hsome : a.text.isEmpty = false := by
    cases a <;> simp [Socket.text]
  simp only [tcp?, htrim, hsome, Bool.false_eq_true, if_false, resolve_text]
  rfl

theorem display_tcp_injective {host host' : String} {addresses addresses' : List Socket}
    (h : (tcp host addresses).display = (tcp host' addresses').display) : host = host' :=
  (String.append_right_inj "tcp://").1 h

end Destination

/-- A printed address between blanks is the destination of that one address, which shows it as it
was printed; and the destination of another address has another host, another display and another
list of addresses. -/
theorem printedAddress_resolves (a : Socket) (before after : String)
    (hbefore : ∀ c ∈ before.toList, isBlankChar c = true)
    (hafter : ∀ c ∈ after.toList, isBlankChar c = true) :
    Destination.tcp? (before ++ a.display ++ after) = .ok (.tcp a.display [a]) ∧
    (Destination.tcp a.display [a]).display = "tcp://" ++ a.display ∧
    ∀ b before' after', (∀ c ∈ before'.toList ++ after'.toList, isBlankChar c = true) → b ≠ a →
      ∃ host addresses, Destination.tcp? (before' ++ b.display ++ after') =
        .ok (.tcp host addresses) ∧ host ≠ a.display ∧ addresses ≠ [a] ∧
        (Destination.tcp host addresses).display ≠ (Destination.tcp a.display [a]).display := by
  refine ⟨Destination.tcp?_between_blanks a hbefore hafter, rfl, fun b before' after' h hne => ?_⟩
  rw [List.forall_mem_append] at h
  have hdisplay : b.display ≠ a.display := fun h => hne (Socket.display_injective h)
  exact ⟨b.display, [b], Destination.tcp?_between_blanks b h.1 h.2, hdisplay,
    fun h => hne (List.singleton_inj.1 h), fun h => hdisplay (Destination.display_tcp_injective h)⟩

/-- A host within one link, with a port. -/
def linkLocal : Socket := .v6 ⟨[0xFE80, 0, 0, 0, 0, 0, 0, 1], rfl⟩ 80 3

/-- An address that has zeros left out and names its scope, between blanks of several kinds. -/
theorem printedAddress_resolves_linkLocal :
    linkLocal.display = "[fe80::1%3]:80" ∧
    (∀ c ∈ "\u3000 \t".toList ++ "\u2028\n".toList, isBlankChar c = true) ∧
    Destination.tcp? ("\u3000 \t" ++ linkLocal.display ++ "\u2028\n") =
      .ok (.tcp linkLocal.display [linkLocal]) := by
  have hall : ("\u3000 \t".toList ++ "\u2028\n".toList).all isBlankChar = true := by
    decide +kernel
  have hblanks := List.all_eq_true.1 hall
  have hparts := List.forall_mem_append.1 hblanks
  refine ⟨by decide +kernel, hblanks, ?_⟩
  exact (printedAddress_resolves linkLocal "\u3000 \t" "\u2028\n" hparts.1 hparts.2).1

end FramedRelay
