import FramedRelay.Failure
import Mathlib.Data.List.Basic

/-!
# What a message tells

A message starts with letters that tell its cause, but for a failure to connect and a fault of the
configuration, which the fourth letter tells apart. After the words of the cause comes the reason
as it is, or two numbers, the first of which ends where its digits do. So a message tells the
failure (`Failure.message_injective`).
-/

namespace FramedRelay.Failure

/-- The letters that a message starts with. -/
def initials : Failure → List Char
  | .connectFailed _ => ['c', 'o', 'n']
  | .sendFailed _ => ['s', 'e', 'n']
  | .receiveFailed _ => ['r', 'e', 'c']
  | .replyTooLarge .. => ['r', 'e', 'p']
  | .timedOut _ => ['t', 'i', 'm']
  | .malformedInput _ => ['m', 'a', 'l']
  | .requestTooLarge .. => ['r', 'e', 'q']
  | .internal _ => ['i', 'n', 't']
  | .misconfigured _ => ['c', 'o', 'n']

variable {f g : Failure}

theorem prefix_append {cs : List Char} {s : String} (h : cs <+: s.toList) (t : String) :
    cs <+: (s ++ t).toList := by
  rw [String.toList_append]
  exact h.trans (List.prefix_append _ _)

theorem initials_prefix (f : Failure) : f.initials <+: f.message.toList := by
  cases f with
  | connectFailed reason =>
    exact prefix_append (show ['c', 'o', 'n'] <+: "connect failed: ".toList by decide) reason
  | sendFailed reason =>
    exact prefix_append (show ['s', 'e', 'n'] <+: "send failed: ".toList by decide) reason
  | receiveFailed reason =>
    exact prefix_append (show ['r', 'e', 'c'] <+: "receive failed: ".toList by decide) reason
  | replyTooLarge size limit =>
    have h : ['r', 'e', 'p'] <+: "reply too large: ".toList := by decide
    exact prefix_append (prefix_append (prefix_append (prefix_append h _) _) _) _
  | timedOut stage =>
    exact prefix_append (show ['t', 'i', 'm'] <+: "timed out ".toList by decide) stage
  | malformedInput reason =>
    exact prefix_append (show ['m', 'a', 'l'] <+: "malformed input: ".toList by decide) reason
  | requestTooLarge size limit =>
    have h : ['r', 'e', 'q'] <+: "request too large: ".toList := by decide
    exact prefix_append (prefix_append (prefix_append (prefix_append h _) _) _) _
  | internal reason =>
    exact prefix_append (show ['i', 'n', 't'] <+: "internal error: ".toList by decide) reason
  | misconfigured reason =>
    exact prefix_append (show ['c', 'o', 'n'] <+: "configuration error: ".toList by decide) reason

theorem length_initials (f : Failure) : f.initials.length = 3 := by
  cases f <;> rfl

theorem initials_eq_of_message_eq (h : f.message = g.message) : f.initials = g.initials := by
  have hf := f.initials_prefix
  rw [h] at hf
  have hlength := f.length_initials.trans g.length_initials.symm
  exact (List.prefix_of_prefix_length_le hf g.initials_prefix
    (Nat.le_of_eq hlength)).eq_of_length hlength

/-! ## Numbers -/

/-- A number ends where its digits do. -/
theorem digits_append_unique {m n : ℕ} {cs ds : List Char}
    (h : Nat.toDigits 10 m ++ ' ' :: cs = Nat.toDigits 10 n ++ ' ' :: ds) : m = n ∧ cs = ds := by
  have hdigit (k : ℕ) : ∀ c ∈ Nat.toDigits 10 k, c.isDigit = true := fun _ hc =>
    Nat.isDigit_of_mem_toDigits (by decide) (by decide) hc
  have hfront (k : ℕ) (es : List Char) :
      (Nat.toDigits 10 k ++ ' ' :: es).takeWhile Char.isDigit = Nat.toDigits 10 k := by
    rw [List.takeWhile_append_of_pos (hdigit k)]
    exact List.append_nil _
  have hsame : Nat.toDigits 10 m = Nat.toDigits 10 n := by
    rw [← hfront m cs, h, hfront]
  obtain rfl : m = n := by
    have := congrArg (Nat.ofDigitChars 10 · 0) hsame
    simpa [Nat.ofDigitChars_ten_toDigits] using this
  exact ⟨rfl, (List.cons.inj (List.append_cancel_left h)).2⟩

/-- The words that name a size and the limit that it exceeds tell both. -/
theorem sizes_unique {heading : String} {size limit size' limit' : ℕ}
    (h : heading ++ toString size ++ " bytes exceeds maximum of " ++ toString limit ++ " bytes" =
      heading ++ toString size' ++ " bytes exceeds maximum of " ++ toString limit' ++ " bytes") :
    size = size' ∧ limit = limit' := by
  have hlist := congrArg String.toList h
  simp only [String.toList_append, List.append_assoc, List.append_cancel_left_eq,
    Nat.toString_eq_ofList_toDigits, String.toList_ofList] at hlist
  obtain ⟨hsize, hrest⟩ := digits_append_unique hlist
  have hlimit : Nat.toDigits 10 limit ++ ' ' :: "bytes".toList =
      Nat.toDigits 10 limit' ++ ' ' :: "bytes".toList := List.append_cancel_left hrest
  exact ⟨hsize, (digits_append_unique hlimit).1⟩

/-! ## Failures -/

/-- The fourth letter tells apart what starts with the same three. -/
theorem connectFailed_ne_misconfigured (reason reason' : String) :
    (connectFailed reason).message ≠ (misconfigured reason').message := fun h => by
  have hconnect : ['c', 'o', 'n', 'n'] <+: (connectFailed reason).message.toList :=
    prefix_append (show ['c', 'o', 'n', 'n'] <+: "connect failed: ".toList by decide) reason
  have hconfigure : ['c', 'o', 'n', 'f'] <+: (misconfigured reason').message.toList :=
    prefix_append (show ['c', 'o', 'n', 'f'] <+: "configuration error: ".toList by decide) reason'
  rw [h] at hconnect
  have hsame := List.prefix_of_prefix_length_le hconnect hconfigure (Nat.le_refl 4)
  simp at hsame

/-- Failures with the same message are the same. -/
theorem message_injective : Function.Injective message := by
  intro f g h
  have hinitials := initials_eq_of_message_eq h
  cases f with
  | connectFailed reason =>
    cases g with
    | connectFailed reason' => rw [(String.append_right_inj _).1 h]
    | misconfigured reason' => exact absurd h (connectFailed_ne_misconfigured reason reason')
    | _ => simp [initials] at hinitials
  | sendFailed reason =>
    cases g with
    | sendFailed reason' => rw [(String.append_right_inj _).1 h]
    | _ => simp [initials] at hinitials
  | receiveFailed reason =>
    cases g with
    | receiveFailed reason' => rw [(String.append_right_inj _).1 h]
    | _ => simp [initials] at hinitials
  | replyTooLarge size limit =>
    cases g with
    | replyTooLarge size' limit' =>
      obtain ⟨rfl, rfl⟩ := sizes_unique h
      rfl
    | _ => simp [initials] at hinitials
  | timedOut stage =>
    cases g with
    | timedOut stage' => rw [(String.append_right_inj _).1 h]
    | _ => simp [initials] at hinitials
  | malformedInput reason =>
    cases g with
    | malformedInput reason' => rw [(String.append_right_inj _).1 h]
    | _ => simp [initials] at hinitials
  | requestTooLarge size limit =>
    cases g with
    | requestTooLarge size' limit' =>
      obtain ⟨rfl, rfl⟩ := sizes_unique h
      rfl
    | _ => simp [initials] at hinitials
  | internal reason =>
    cases g with
    | internal reason' => rw [(String.append_right_inj _).1 h]
    | _ => simp [initials] at hinitials
  | misconfigured reason =>
    cases g with
    | misconfigured reason' => rw [(String.append_right_inj _).1 h]
    | connectFailed reason' => exact absurd h.symm (connectFailed_ne_misconfigured reason' reason)
    | _ => simp [initials] at hinitials

end FramedRelay.Failure
