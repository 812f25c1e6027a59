import FramedRelay.Text.Blank
import FramedRelay.Text.Decimal
import Mathlib.Data.List.DropRight

/-!
# Numbers between blanks

Trimming takes the blanks off both ends of a text and nothing else (`trimBlanks_append`,
`exists_eq_append_trimBlanks`). A text is read as a number below a limit if and only if it is an
optional plus sign and one or more digits that denote that number, however many zeros come first
(`Decimal.read_eq_ok_iff`); where signs are read, zero may have a minus sign as well
(`Decimal.readSigned_eq_ok_iff`). Reading gives up at the first leading part that reaches the
limit, and no further digit would bring the number below it (`Decimal.le_ofDigitChars`).
-/

namespace FramedRelay

theorem Except.map_eq_ok_iff {ε α β : Type} {x : Except ε α} {f : α → β} {b : β} :
    x.map f = .ok b ↔ ∃ a, x = .ok a ∧ f a = b := by
  cases x <;> simp [Except.map]

theorem Except.bind_eq_ok_iff {ε α β : Type} {x : Except ε α} {f : α → Except ε β} {b : β} :
    (x >>= f) = .ok b ↔ ∃ a, x = .ok a ∧ f a = .ok b := by
  cases x <;> simp [bind, Except.bind]

/-! ## Blanks -/

section Blanks

variable {before core after : List Char}

/-- What holds no blank is all that is left when the blanks around it are taken off. -/
theorem trimBlanks_append (hbefore : ∀ c ∈ before, isBlankChar c = true)
    (hcore : ∀ c ∈ core, isBlankChar c = false) (hafter : ∀ c ∈ after, isBlankChar c = true) :
    trimBlanks (before ++ core ++ after) = core := by
  rw [trimBlanks, List.append_assoc, List.dropWhile_append_of_pos hbefore]
  cases core with
  | nil =>
    rw [List.nil_append, List.dropWhile_eq_nil_iff.2 hafter]
    rfl
  | cons c core =>
    have hfirst : isBlankChar c = false := hcore c List.mem_cons_self
    have hlast : ((c :: core).reverse).dropWhile isBlankChar = (c :: core).reverse := by
      refine List.dropWhile_eq_self_iff.2 fun hpos => ?_
      exact Bool.eq_false_iff.1 (hcore _ (List.mem_reverse.1 (List.getElem_mem hpos)))
    rw [List.cons_append, List.dropWhile_cons_of_neg (by simp [hfirst]), ← List.cons_append,
      List.reverse_append, List.dropWhile_append_of_pos (by simpa using hafter), hlast,
      List.reverse_reverse]

/-- Only blanks are taken off. -/
theorem exists_eq_append_trimBlanks (cs : List Char) : ∃ before after,
    cs = before ++ trimBlanks cs ++ after ∧ ∀ c ∈ before ++ after, isBlankChar c = true := by
  refine ⟨cs.takeWhile isBlankChar, (cs.dropWhile isBlankChar).rtakeWhile isBlankChar, ?_, ?_⟩
  · show cs = _ ++ (cs.dropWhile isBlankChar).rdropWhile isBlankChar ++ _
    rw [List.append_assoc, List.rdropWhile_append_rtakeWhile, List.takeWhile_append_dropWhile]
  · intro c hc
    rcases List.mem_append.1 hc with hc | hc
    · exact List.mem_takeWhile_imp hc
    · exact List.mem_rtakeWhile_imp hc

end Blanks

/-! ## Digits -/

/-- A positive number starts with a digit other than zero. -/
theorem head?_toDigits {n : ℕ} (h : 0 < n) : (Nat.toDigits 10 n).head? ≠ some '0' := by
  induction n using Nat.strongRecOn with
  | ind n ih =>
    rcases Nat.lt_or_ge n 10 with hlt | hge
    · simp [Nat.toDigits_of_lt_base hlt, h.ne']
    · rw [Nat.toDigits_of_base_le (by decide) hge,
        List.head?_append_of_ne_nil _ Nat.toDigits_ne_nil]
      exact ih (n / 10) (by omega) (by omega)

namespace Decimal

variable {limit value n : ℕ} {excess : Fault} {cs : List Char}

/-- More digits do not make a number smaller. -/
theorem le_ofDigitChars (cs : List Char) (value : ℕ) : value ≤ Nat.ofDigitChars 10 cs value := by
  induction cs generalizing value with
  | nil => exact Nat.le_refl value
  | cons c cs ih =>
    rw [Nat.ofDigitChars_cons]
    exact Nat.le_trans (by omega) (ih _)

theorem extend_eq_ok_iff (hvalue : value < limit) : extend limit excess value cs = .ok n ↔
    (∀ c ∈ cs, c.isDigit = true) ∧ Nat.ofDigitChars 10 cs value = n ∧ n < limit := by
  induction cs generalizing value with
  | nil =>
    constructor
    · intro h
      obtain rfl := Except.ok.inj h
      exact ⟨by simp, rfl, hvalue⟩
    · rintro ⟨-, rfl, -⟩
      rfl
  | cons c cs ih =>
    rw [extend, Nat.ofDigitChars_cons]
    by_cases hc : c.isDigit = true
    · rw [if_pos hc]
      by_cases hlt : 10 * value + digit c < limit
      · simp only [if_pos hlt, ih hlt, List.forall_mem_cons, hc, true_and]
        rfl
      · simp only [if_neg hlt, reduceCtorEq, false_iff]
        rintro ⟨-, rfl, hn⟩
        exact hlt (Nat.lt_of_le_of_lt (le_ofDigitChars cs _) hn)
    · rw [if_neg hc]
      simp [hc]

/-- One or more digits, and the number that they denote. -/
def IsDigits (ds : List Char) (n : ℕ) : Prop :=
  ds ≠ [] ∧ (∀ c ∈ ds, c.isDigit = true) ∧ Nat.ofDigitChars 10 ds 0 = n

theorem isDigits_toDigits (n : ℕ) : IsDigits (Nat.toDigits 10 n) n :=
  ⟨Nat.toDigits_ne_nil, fun _ hc => Nat.isDigit_of_mem_toDigits (by decide) (by decide) hc,
    Nat.ofDigitChars_ten_toDigits⟩

theorem digits_eq_ok_iff : digits limit excess cs = .ok n ↔ IsDigits cs n ∧ n < limit := by
  cases cs with
  | nil => simp [digits, IsDigits]
  | cons c cs =>
    rcases Nat.eq_zero_or_pos limit with rfl | hlimit
    · simp only [Nat.not_lt_zero, and_false, iff_false, digits, extend]
      split <;> simp
    · rw [digits, extend_eq_ok_iff hlimit]
      simp [IsDigits, and_assoc]

/-! ## Signs -/

/-- Digits, perhaps after a plus sign, and the number that they denote. -/
def Unsigned (cs : List Char) (n : ℕ) : Prop :=
  ∃ ds, (cs = ds ∨ cs = '+' :: ds) ∧ IsDigits ds n

/-- Digits, perhaps after a sign, and the number that they denote. -/
inductive Signed : List Char → ℤ → Prop
  | unsigned {cs : List Char} {n : ℕ} (h : Unsigned cs n) : Signed cs n
  | minus {ds : List Char} {n : ℕ} (h : IsDigits ds n) : Signed ('-' :: ds) (-n)

/-- A text is read as a number below the limit if it is an optional plus sign and digits that
denote it. -/
theorem read_eq_ok_iff : read limit cs = .ok n ↔ Unsigned cs n ∧ n < limit := by
  unfold read
  split
  · simp [Unsigned, IsDigits]
  · next ds =>
    rw [digits_eq_ok_iff]
    constructor
    · exact fun ⟨h, hn⟩ => ⟨⟨ds, Or.inr rfl, h⟩, hn⟩
    · rintro ⟨⟨ds', rfl | heq, h⟩, hn⟩
      · exact absurd (h.2.1 '+' List.mem_cons_self) (by decide)
      · obtain ⟨-, rfl⟩ := List.cons.inj heq
        exact ⟨h, hn⟩
  · next hplus =>
    rw [digits_eq_ok_iff]
    constructor
    · exact fun ⟨h, hn⟩ => ⟨⟨cs, Or.inl rfl, h⟩, hn⟩
    · rintro ⟨⟨ds, rfl | rfl, h⟩, hn⟩
      · exact ⟨h, hn⟩
      · exact absurd rfl (hplus ds)

theorem not_unsigned_minus (ds : List Char) (n : ℕ) : ¬Unsigned ('-' :: ds) n := by
  rintro ⟨ds', rfl | h, hdigits⟩
  · exact absurd (hdigits.2.1 '-' List.mem_cons_self) (by decide)
  · exact absurd (List.cons.inj h).1 (by decide)

/-- Without a minus sign, a signed number is read as any other is. -/
theorem readSigned_of_head? (h : cs.head? ≠ some '-') :
    readSigned cs = (read (UInt64.size / 2) cs).map Int.ofNat := by
  unfold readSigned
  split
  · rfl
  · rfl
  · exact absurd rfl h
  · next hnil hplus _ => rw [read] <;> assumption

/-- A text is read as a number that is not negative if it is that number with an optional sign:
zero may have a minus sign. -/
theorem readSigned_eq_ok_iff :
    readSigned cs = .ok (n : ℤ) ↔ Signed cs n ∧ n < UInt64.size / 2 := by
  by_cases h : cs.head? = some '-'
  · obtain ⟨ds, rfl⟩ := List.head?_eq_some_iff.1 h
    rw [readSigned, Except.map_eq_ok_iff]
    have hsize : 0 < UInt64.size / 2 := by decide
    constructor
    · rintro ⟨m, hm, hz⟩
      have hz : (n : ℤ) = -(m : ℤ) := hz.symm
      exact ⟨hz ▸ .minus (digits_eq_ok_iff.1 hm).1, by omega⟩
    · rintro ⟨hsigned, hlt⟩
      generalize hz : (n : ℤ) = z at hsigned
      cases hsigned with
      | unsigned h => exact absurd h (not_unsigned_minus _ _)
      | @minus _ m h => exact ⟨m, digits_eq_ok_iff.2 ⟨h, by omega⟩, rfl⟩
  · rw [readSigned_of_head? h, Except.map_eq_ok_iff]
    simp only [read_eq_ok_iff]
    constructor
    · rintro ⟨m, ⟨hm, hlt⟩, hz⟩
      obtain rfl := Int.ofNat.inj hz
      exact ⟨.unsigned hm, hlt⟩
    · rintro ⟨hsigned, hlt⟩
      generalize hz : (n : ℤ) = z at hsigned
      cases hsigned with
      | unsigned hm => exact ⟨n, ⟨Int.ofNat.inj hz ▸ hm, hlt⟩, hz ▸ rfl⟩
      | minus _ => exact absurd rfl h

end Decimal

end FramedRelay
