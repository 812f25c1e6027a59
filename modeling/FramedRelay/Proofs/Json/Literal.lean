import Mathlib.Algebra.Order.Field.Rat
import Mathlib.Data.Rat.Cast.Defs
import Mathlib.Tactic
import FramedRelay.Json.Numeral

/-!
# Number literals

`Json.Literal` is a number of the JSON grammar in its parts: a minus sign or none, the digits before
the point, those after it, and an exponent or none. It carries the proof that its parts are such as
the grammar wants them. `Literal.bytes` is how it is written and `Literal.toRat` the number that it
denotes, without rounding.

A text has at most one way to start with a literal that ends where it ends: what follows a number
in a JSON text is no byte that could go on with it (`Boundary`), so the parts can be told apart one
after another (`Literal.eq_of_bytes_append_eq`).
-/

namespace FramedRelay.Json

/-! ## Digits -/

/-- The number that decimal digits denote. -/
def decimal (ds : Bytes) : ℕ :=
  ds.foldl (fun n b => 10 * n + digitValue b) 0

theorem foldl_decimal (n : ℕ) (ds : Bytes) :
    ds.foldl (fun n b => 10 * n + digitValue b) n = n * 10 ^ ds.length + decimal ds := by
  induction ds generalizing n with
  | nil => simp [decimal]
  | cons d ds ih =>
    simp only [decimal, List.foldl_cons, List.length_cons]
    rw [ih, ih (10 * 0 + digitValue d)]
    ring

theorem decimal_append (ds es : Bytes) :
    decimal (ds ++ es) = decimal ds * 10 ^ es.length + decimal es := by
  rw [decimal, List.foldl_append, foldl_decimal]
  rfl

theorem decimal_cons (d : UInt8) (ds : Bytes) :
    decimal (d :: ds) = digitValue d * 10 ^ ds.length + decimal ds := by
  rw [← List.singleton_append, decimal_append]
  simp [decimal]

theorem digitValue_le {b : UInt8} (h : isDigit b = true) : digitValue b ≤ 9 := by
  simp only [isDigit, Bool.and_eq_true, decide_eq_true_eq] at h
  have := UInt8.le_iff_toNat_le.1 h.2
  simp only [digitValue]
  have : (57 : UInt8).toNat = 57 := rfl
  omega

/-- Digits denote less than the power of ten with as many zeros. -/
theorem decimal_lt {ds : Bytes} (h : ∀ b ∈ ds, isDigit b = true) : decimal ds < 10 ^ ds.length := by
  induction ds with
  | nil => simp [decimal]
  | cons d ds ih =>
    have hd := digitValue_le (h d (by simp))
    have hds := ih fun b hb => h b (by simp [hb])
    calc decimal (d :: ds) = digitValue d * 10 ^ ds.length + decimal ds := decimal_cons d ds
      _ < 9 * 10 ^ ds.length + 10 ^ ds.length :=
        Nat.add_lt_add_of_le_of_lt (Nat.mul_le_mul_right _ hd) hds
      _ = 10 ^ (d :: ds).length := by rw [List.length_cons, pow_succ]; ring

/-! ## Literals -/

/-- The exponent of a number literal. -/
@[ext]
structure Exponent where
  mark : UInt8
  sign : Bytes
  digits : Bytes
  mark_eq : mark = 0x65 ∨ mark = 0x45
  sign_eq : sign = [] ∨ sign = [0x2B] ∨ sign = [0x2D]
  digits_ne_nil : digits ≠ []
  isDigit_digits : ∀ b ∈ digits, isDigit b = true

namespace Exponent

def bytes (e : Exponent) : Bytes := e.mark :: e.sign ++ e.digits

def value (e : Exponent) : ℤ :=
  if e.sign = [0x2D] then -decimal e.digits else decimal e.digits

end Exponent

/-- A number literal. Its fraction is empty if it has no point, and has a digit if it has one. -/
@[ext]
structure Literal where
  negative : Bool
  whole : Bytes
  fraction : Bytes
  exponent? : Option Exponent
  whole_ne_nil : whole ≠ []
  isDigit_whole : ∀ b ∈ whole, isDigit b = true
  /-- A leading zero stands alone. -/
  whole_eq : whole.head? = some 0x30 → whole = [0x30]
  isDigit_fraction : ∀ b ∈ fraction, isDigit b = true

namespace Literal

def signBytes (l : Literal) : Bytes := if l.negative then [0x2D] else []

def fractionBytes (l : Literal) : Bytes := if l.fraction = [] then [] else 0x2E :: l.fraction

def exponentBytes (l : Literal) : Bytes := (l.exponent?.map Exponent.bytes).getD []

/-- How a literal is written. -/
def bytes (l : Literal) : Bytes :=
  l.signBytes ++ (l.whole ++ (l.fractionBytes ++ l.exponentBytes))

/-- The number that the digits on both sides of the point denote. -/
def digits (l : Literal) : ℕ := decimal (l.whole ++ l.fraction)

/-- The power of ten of the last digit. -/
def scale (l : Literal) : ℤ := (l.exponent?.map Exponent.value).getD 0 - l.fraction.length

/-- The number that a literal denotes, without its sign. -/
def magnitude (l : Literal) : ℚ := l.digits * 10 ^ l.scale

/-- The number that a literal denotes. -/
def toRat (l : Literal) : ℚ := if l.negative then -l.magnitude else l.magnitude

/-- Has neither a point nor an exponent. -/
def IsInteger (l : Literal) : Prop := l.fraction = [] ∧ l.exponent? = none

end Literal

/-! ## Telling the parts apart -/

/-- A byte with which a number could go on. -/
def continuesNumber (b : UInt8) : Bool := isDigit b || b == 0x2E || b == 0x65 || b == 0x45

/-- What comes does not go on with a number. -/
def Boundary (rest : Bytes) : Prop := ∀ b ∈ rest.head?, continuesNumber b = false

/-- Two runs of bytes of a kind are equal if each ends where no more of the kind come. -/
theorem run_unique {p : UInt8 → Bool} {as as' bs bs' : Bytes} (has : ∀ b ∈ as, p b = true)
    (has' : ∀ b ∈ as', p b = true) (hbs : ∀ b ∈ bs.head?, p b = false)
    (hbs' : ∀ b ∈ bs'.head?, p b = false) (h : as ++ bs = as' ++ bs') : as = as' ∧ bs = bs' := by
  have htake : ∀ {as bs : Bytes}, (∀ b ∈ as, p b = true) → (∀ b ∈ bs.head?, p b = false) →
      (as ++ bs).takeWhile p = as := by
    intro as bs has hbs
    rw [List.takeWhile_append_of_pos has]
    cases bs with
    | nil => simp
    | cons b bs => simp [hbs b (by simp)]
  have heq : as = as' := by rw [← htake has hbs, h, htake has' hbs']
  subst heq
  exact ⟨rfl, List.append_cancel_left h⟩

namespace Exponent

variable {e e' : Exponent} {rest rest' : Bytes}

theorem not_isDigit_after_sign (e : Exponent) : ∀ b ∈ e.sign, isDigit b = false := by
  intro b hb
  rcases e.sign_eq with h | h | h <;> rw [h] at hb <;> simp at hb <;> rw [hb] <;> rfl

theorem isDigit_head (e : Exponent) (rest : Bytes) :
    ∀ b ∈ (e.digits ++ rest).head?, isDigit b = true := by
  intro b hb
  cases hds : e.digits with
  | nil => exact absurd hds e.digits_ne_nil
  | cons d ds =>
    obtain rfl : d = b := by simpa [hds] using hb
    exact e.isDigit_digits d (by simp [hds])

theorem eq_of_bytes_append_eq (hrest : ∀ b ∈ rest.head?, isDigit b = false)
    (hrest' : ∀ b ∈ rest'.head?, isDigit b = false)
    (h : e.bytes ++ rest = e'.bytes ++ rest') : e = e' ∧ rest = rest' := by
  simp only [bytes, List.cons_append, List.append_assoc, List.cons.injEq] at h
  obtain ⟨hmark, h⟩ := h
  obtain ⟨hsign, h⟩ := run_unique (p := fun b => !isDigit b)
    (fun b hb => by simp [e.not_isDigit_after_sign b hb])
    (fun b hb => by simp [e'.not_isDigit_after_sign b hb])
    (fun b hb => by simp [e.isDigit_head rest b hb])
    (fun b hb => by simp [e'.isDigit_head rest' b hb]) h
  obtain ⟨hdigits, hend⟩ := run_unique e.isDigit_digits e'.isDigit_digits hrest hrest' h
  exact ⟨Exponent.ext hmark hsign hdigits, hend⟩

end Exponent

namespace Literal

variable {l l' : Literal} {rest rest' : Bytes}

/-- After the digits of a literal comes no digit. -/
theorem not_isDigit_after_fraction (l : Literal) (hrest : Boundary rest) :
    ∀ b ∈ (l.exponentBytes ++ rest).head?, isDigit b = false := by
  intro b hb
  unfold exponentBytes at hb
  cases he : l.exponent? with
  | none =>
    have := hrest b (by simpa [he] using hb)
    simp only [continuesNumber, Bool.or_eq_false_iff] at this
    exact this.1.1.1
  | some e =>
    obtain rfl : e.mark = b := by simpa [he, Exponent.bytes] using hb
    rcases e.mark_eq with h | h <;> rw [h] <;> rfl

theorem not_isDigit_after_whole (l : Literal) (hrest : Boundary rest) :
    ∀ b ∈ (l.fractionBytes ++ (l.exponentBytes ++ rest)).head?, isDigit b = false := by
  intro b hb
  unfold fractionBytes at hb
  split at hb
  · exact l.not_isDigit_after_fraction hrest b hb
  · obtain rfl : 0x2E = b := by simpa using hb
    rfl

/-- No literal goes on with a point after its fraction. -/
theorem no_point_after_fraction (l : Literal) (hrest : Boundary rest) :
    ∀ b ∈ (l.exponentBytes ++ rest).head?, b ≠ 0x2E := by
  intro b hb
  unfold exponentBytes at hb
  cases he : l.exponent? with
  | none =>
    have := hrest b (by simpa [he] using hb)
    simp only [continuesNumber, Bool.or_eq_false_iff, beq_eq_false_iff_ne] at this
    exact this.1.1.2
  | some e =>
    obtain rfl : e.mark = b := by simpa [he, Exponent.bytes] using hb
    rcases e.mark_eq with h | h <;> rw [h] <;> decide

theorem fraction_unique (hrest : Boundary rest) (hrest' : Boundary rest')
    (h : l.fractionBytes ++ (l.exponentBytes ++ rest) =
      l'.fractionBytes ++ (l'.exponentBytes ++ rest')) :
    l.fraction = l'.fraction ∧ l.exponentBytes ++ rest = l'.exponentBytes ++ rest' := by
  unfold fractionBytes at h
  split at h <;> split at h
  · next h₁ h₂ => exact ⟨h₁.trans h₂.symm, h⟩
  · exact absurd rfl (l.no_point_after_fraction hrest 0x2E (by
      rw [List.nil_append] at h; rw [h]; rfl))
  · exact absurd rfl (l'.no_point_after_fraction hrest' 0x2E (by
      rw [List.nil_append] at h; rw [← h]; rfl))
  · exact run_unique l.isDigit_fraction l'.isDigit_fraction (l.not_isDigit_after_fraction hrest)
      (l'.not_isDigit_after_fraction hrest') (List.cons.inj h).2

theorem exponent_unique (hrest : Boundary rest) (hrest' : Boundary rest')
    (h : l.exponentBytes ++ rest = l'.exponentBytes ++ rest') :
    l.exponent? = l'.exponent? ∧ rest = rest' := by
  have hdigit : ∀ {rest : Bytes}, Boundary rest → ∀ b ∈ rest.head?, isDigit b = false := by
    intro rest hrest b hb
    have := hrest b hb
    simp only [continuesNumber, Bool.or_eq_false_iff] at this
    exact this.1.1.1
  have hmark : ∀ {rest rest' : Bytes} (e : Exponent), Boundary rest → rest ≠ e.bytes ++ rest' := by
    rintro rest rest' e hrest rfl
    have := hrest e.mark (by simp [Exponent.bytes])
    rcases e.mark_eq with h | h <;> rw [h] at this <;> cases this
  unfold exponentBytes at h
  cases he : l.exponent? with
  | none =>
    cases he' : l'.exponent? with
    | none => simpa [he, he'] using h
    | some e' => exact absurd (by simpa [he, he'] using h) (hmark e' hrest)
  | some e =>
    cases he' : l'.exponent? with
    | none => exact absurd (by simpa [he, he'] using h.symm) (hmark e hrest')
    | some e' =>
      obtain ⟨rfl, hrest⟩ := Exponent.eq_of_bytes_append_eq (hdigit hrest) (hdigit hrest')
        (by simpa [he, he'] using h)
      exact ⟨rfl, hrest⟩

theorem head?_whole (l : Literal) : ∃ d, l.whole.head? = some d ∧ isDigit d = true := by
  cases h : l.whole with
  | nil => exact absurd h l.whole_ne_nil
  | cons d ds => exact ⟨d, rfl, l.isDigit_whole d (by simp [h])⟩

/-- A literal starts with a minus sign or a digit. -/
theorem bytes_eq_cons (l : Literal) :
    ∃ b bs, l.bytes = b :: bs ∧ (b = 0x2D ∨ isDigit b = true) := by
  unfold bytes signBytes
  cases l.negative with
  | true => exact ⟨_, _, rfl, Or.inl rfl⟩
  | false =>
    cases h : l.whole with
    | nil => exact absurd h l.whole_ne_nil
    | cons d ds => exact ⟨_, _, rfl, Or.inr (l.isDigit_whole d (by simp [h]))⟩

/-- The bytes of a literal show, and are ASCII. -/
theorem bounds_of_mem_bytes (l : Literal) : ∀ b ∈ l.bytes, 0x20 < b ∧ b < 0x80 := by
  have hdigit : ∀ {ds : Bytes}, (∀ b ∈ ds, isDigit b = true) → ∀ b ∈ ds, 0x20 < b ∧ b < 0x80 := by
    intro ds h b hb
    have := h b hb
    simp only [isDigit, Bool.and_eq_true, decide_eq_true_eq] at this
    exact ⟨UInt8.lt_of_lt_of_le (b := 0x30) (by decide) this.1,
      UInt8.lt_of_le_of_lt (b := 0x39) this.2 (by decide)⟩
  intro b hb
  simp only [bytes, List.mem_append] at hb
  rcases hb with hb | hb | hb | hb
  · unfold signBytes at hb
    split at hb <;> simp_all
  · exact hdigit l.isDigit_whole b hb
  · unfold fractionBytes at hb
    split at hb
    · cases hb
    · rcases List.mem_cons.1 hb with rfl | hb
      · decide
      · exact hdigit l.isDigit_fraction b hb
  · unfold exponentBytes at hb
    cases he : l.exponent? with
    | none => simp [he] at hb
    | some e =>
      simp only [he, Option.map_some, Option.getD_some, Exponent.bytes, List.mem_cons,
        List.mem_append] at hb
      rcases hb with (rfl | hb) | hb
      · rcases e.mark_eq with h | h <;> rw [h] <;> decide
      · rcases e.sign_eq with h | h | h <;> rw [h] at hb <;> simp at hb <;> subst hb <;> decide
      · exact hdigit e.isDigit_digits b hb

theorem sign_unique {as as' : Bytes} (h : l.signBytes ++ (l.whole ++ as) =
    l'.signBytes ++ (l'.whole ++ as')) :
    l.negative = l'.negative ∧ l.whole ++ as = l'.whole ++ as' := by
  have hminus : ∀ (l : Literal) (as bs : Bytes), l.whole ++ as ≠ 0x2D :: bs := by
    intro l as bs h
    obtain ⟨d, hd, hdigit⟩ := l.head?_whole
    have : (l.whole ++ as).head? = some d := by simp [hd]
    rw [h] at this
    obtain rfl : 0x2D = d := by simpa using this
    cases hdigit
  unfold signBytes at h
  cases hn : l.negative <;> cases hn' : l'.negative <;> simp only [hn, hn'] at h
  · exact ⟨rfl, h⟩
  · exact absurd h (hminus l _ _)
  · exact absurd h.symm (hminus l' _ _)
  · exact ⟨rfl, (List.cons.inj h).2⟩

/-- A text starts in one way at most with a literal that ends where it ends. -/
theorem eq_of_bytes_append_eq (hrest : Boundary rest) (hrest' : Boundary rest')
    (h : l.bytes ++ rest = l'.bytes ++ rest') : l = l' ∧ rest = rest' := by
  simp only [bytes, List.append_assoc] at h
  obtain ⟨hsign, h⟩ := sign_unique h
  obtain ⟨hwhole, h⟩ := run_unique l.isDigit_whole l'.isDigit_whole
    (l.not_isDigit_after_whole hrest) (l'.not_isDigit_after_whole hrest') h
  obtain ⟨hfraction, h⟩ := fraction_unique hrest hrest' h
  obtain ⟨hexponent, hend⟩ := exponent_unique hrest hrest' h
  exact ⟨Literal.ext hsign hwhole hfraction hexponent, hend⟩

end Literal

end FramedRelay.Json
