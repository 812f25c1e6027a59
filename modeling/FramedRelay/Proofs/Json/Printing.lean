import FramedRelay.Json.Print
import FramedRelay.Proofs.Json.Ordered
import FramedRelay.Proofs.Json.Grammar
import FramedRelay.Proofs.Number.Shortest
import FramedRelay.Proofs.Text.Decimals

/-!
# What is printed

The text of every value denotes a value that matches it, in which each number is a literal that
denotes what the number shows (`Value.denotes_print`). The text of a number is a literal in every
layout (`Layout.exists_literal`).
-/

namespace FramedRelay.Json

/-- The bytes of characters. -/
def bytesOf (cs : List Char) : Bytes := cs.flatMap String.utf8EncodeChar

theorem bytesOf_append (cs ds : List Char) : bytesOf (cs ++ ds) = bytesOf cs ++ bytesOf ds :=
  List.flatMap_append

/-! ## Digits -/

/-- The byte of an ASCII character. -/
def asciiByte (c : Char) : UInt8 := c.val.toUInt8

theorem utf8EncodeChar_of_lt {c : Char} (h : c.toNat < 128) :
    String.utf8EncodeChar c = [asciiByte c] := by
  refine String.utf8EncodeChar_eq_singleton (Char.utf8Size_eq_one_iff.2 ?_)
  rw [UInt32.le_iff_toNat_le]
  exact Nat.le_of_lt_succ h

theorem toNat_asciiByte {c : Char} (h : c.toNat < 128) : (asciiByte c).toNat = c.toNat := by
  have : c.val.toNat < 128 := h
  simp only [asciiByte, UInt32.toNat_toUInt8, Char.toNat]
  omega

theorem bytesOf_eq_map {cs : List Char} (h : ∀ c ∈ cs, c.toNat < 128) :
    bytesOf cs = cs.map asciiByte := by
  induction cs with
  | nil => rfl
  | cons c cs ih =>
    simp only [bytesOf, List.flatMap_cons, List.map_cons] at ih ⊢
    rw [utf8EncodeChar_of_lt (h c (by simp)), ih fun c hc => h c (by simp [hc])]
    rfl

theorem toNat_of_isDigit {c : Char} (h : c.isDigit = true) : 48 ≤ c.toNat ∧ c.toNat ≤ 57 := by
  simpa [Char.isDigit, UInt32.le_iff_toNat_le] using h

theorem isDigit_asciiByte {c : Char} (h : c.isDigit = true) : isDigit (asciiByte c) = true := by
  have := toNat_of_isDigit h
  have hb := toNat_asciiByte (c := c) (by omega)
  simp only [isDigit, Bool.and_eq_true, decide_eq_true_eq, UInt8.le_iff_toNat_le, hb]
  exact this

theorem decimal_map_asciiByte {cs : List Char} (h : ∀ c ∈ cs, c.isDigit = true) :
    decimal (cs.map asciiByte) = Nat.ofDigitChars 10 cs 0 := by
  rw [Nat.ofDigitChars_eq_foldl, decimal, List.foldl_map]
  refine List.foldl_ext _ _ _ fun n c hc => ?_
  have := toNat_of_isDigit (h c hc)
  rw [digitValue, toNat_asciiByte (by omega)]
  rfl

/-- The bytes of a number in decimal. -/
def digitBytes (n : ℕ) : Bytes := (Nat.toDigits 10 n).map asciiByte

theorem isDigit_of_mem_toDigits {n : ℕ} : ∀ c ∈ Nat.toDigits 10 n, c.isDigit = true :=
  fun _ hc => Nat.isDigit_of_mem_toDigits (by decide) (by decide) hc

theorem bytesOf_digits {cs : List Char} (h : ∀ c ∈ cs, c.isDigit = true) :
    bytesOf cs = cs.map asciiByte :=
  bytesOf_eq_map fun c hc => by have := toNat_of_isDigit (h c hc); omega

theorem isDigit_digitBytes (n : ℕ) : ∀ b ∈ digitBytes n, isDigit b = true := by
  intro b hb
  obtain ⟨c, hc, rfl⟩ := List.mem_map.1 hb
  exact isDigit_asciiByte (isDigit_of_mem_toDigits c hc)

theorem decimal_digitBytes (n : ℕ) : decimal (digitBytes n) = n := by
  rw [digitBytes, decimal_map_asciiByte isDigit_of_mem_toDigits, Nat.ofDigitChars_ten_toDigits]

theorem digitBytes_ne_nil (n : ℕ) : digitBytes n ≠ [] := by
  simp [digitBytes, Nat.toDigits_ne_nil]

theorem head?_of_map_asciiByte {cs : List Char} (hcs : ∀ c ∈ cs, c.isDigit = true)
    (h : (cs.map asciiByte).head? = some 0x30) : cs.head? = some '0' := by
  cases cs with
  | nil => cases h
  | cons c cs =>
    have hc := toNat_of_isDigit (hcs c (by simp))
    have hbyte : asciiByte c = 0x30 := Option.some.inj h
    have hnat : c.toNat = 48 := by
      rw [← toNat_asciiByte (by omega : c.toNat < 128), hbyte]
      rfl
    have : c = '0' := Char.ext (UInt32.toNat_inj.1 hnat)
    rw [this]
    rfl

/-! ## Numbers -/

/-- The exponent of a printed number. -/
def printedExponent (e : ℤ) : Exponent where
  mark := 0x65
  sign := if e < 0 then [0x2D] else []
  digits := digitBytes e.natAbs
  mark_eq := Or.inl rfl
  sign_eq := by split <;> simp
  digits_ne_nil := digitBytes_ne_nil _
  isDigit_digits := isDigit_digitBytes _

theorem value_printedExponent (e : ℤ) : (printedExponent e).value = e := by
  simp only [Exponent.value, printedExponent, decimal_digitBytes]
  by_cases h : e < 0
  · rw [if_pos h, if_pos rfl]
    omega
  · rw [if_neg h, if_neg (List.cons_ne_nil _ _).symm]
    omega

theorem bytes_printedExponent (e : ℤ) :
    (printedExponent e).bytes = bytesOf ('e' :: exponentText e) := by
  have hdigits : digitBytes e.natAbs = bytesOf (Nat.toDigits 10 e.natAbs) :=
    (bytesOf_digits isDigit_of_mem_toDigits).symm
  simp only [Exponent.bytes, printedExponent, exponentText, hdigits]
  split <;> rfl

/-- A positive literal that is written so and denotes this number. -/
structure Literal.Prints (l : Literal) (bytes : Bytes) (magnitude : ℚ) : Prop where
  positive : l.negative = false
  bytes_eq : l.bytes = bytes
  magnitude_eq : l.magnitude = magnitude

/-- Digits on both sides of a point are a literal. -/
theorem exists_literal_of_digits (whole fraction : List Char) (e? : Option Exponent)
    (hne : whole ≠ []) (hwhole : ∀ c ∈ whole, c.isDigit = true)
    (hfirst : whole.head? = some '0' → whole = ['0'])
    (hfraction : ∀ c ∈ fraction, c.isDigit = true) :
    ∃ l : Literal, l.Prints
      (bytesOf (whole ++ if fraction = [] then [] else '.' :: fraction) ++
        (e?.map Exponent.bytes).getD [])
      (Nat.ofDigitChars 10 (whole ++ fraction) 0 *
        10 ^ ((e?.map Exponent.value).getD 0 - fraction.length)) := by
  have hall : ∀ c ∈ whole ++ fraction, c.isDigit = true := fun c hc =>
    (List.mem_append.1 hc).elim (hwhole c) (hfraction c)
  refine ⟨⟨false, whole.map asciiByte, fraction.map asciiByte, e?, by simpa using hne, ?_, ?_, ?_⟩,
    ⟨rfl, ?_, ?_⟩⟩
  · simpa using fun c hc => isDigit_asciiByte (hwhole c hc)
  · intro h
    rw [hfirst (head?_of_map_asciiByte hwhole h)]
    rfl
  · simpa using fun c hc => isDigit_asciiByte (hfraction c hc)
  · rw [bytesOf_append, bytesOf_digits hwhole]
    simp only [Literal.bytes, Literal.signBytes, Literal.fractionBytes, Literal.exponentBytes,
      List.map_eq_nil_iff, Bool.false_eq_true, if_false, List.nil_append, List.append_assoc]
    split_ifs with h
    · rfl
    · rw [← bytesOf_digits hfraction]
      rfl
  · simp only [Literal.magnitude, Literal.digits, Literal.scale, List.length_map]
    rw [← List.map_append, decimal_map_asciiByte hall]

section Layouts

variable {n : ℕ}

/-- An integer with a zero after the point. -/
theorem exists_literal_whole (hn : 0 < n) (k : ℕ) :
    ∃ l : Literal, l.Prints (bytesOf (Nat.toDigits 10 n ++ List.replicate k '0' ++ ['.', '0']))
      (n * 10 ^ k) := by
  obtain ⟨l, hpositive, hbytes, hmagnitude⟩ := exists_literal_of_digits
    (Nat.toDigits 10 n ++ List.replicate k '0') ['0'] none
    (by simp [Nat.toDigits_ne_nil])
    (fun c hc => (List.mem_append.1 hc).elim (isDigit_of_mem_toDigits c) fun h => by
      rw [(List.mem_replicate.1 h).2]; rfl)
    (fun h => absurd h (by
      rw [List.head?_append_of_ne_nil _ Nat.toDigits_ne_nil]; exact head?_toDigits hn))
    (by simp)
  refine ⟨l, hpositive, by simpa using hbytes, hmagnitude.trans ?_⟩
  have hnat : Nat.ofDigitChars 10 (Nat.toDigits 10 n ++ List.replicate k '0' ++ ['0']) 0 =
      n * 10 ^ k * 10 := by
    simp [Nat.ofDigitChars_append, Nat.ofDigitChars_cons]
    ring
  rw [hnat]
  simp

/-- The point between two digits. -/
theorem exists_literal_split (hn : 0 < n) {p : ℕ} (hp : 0 < p)
    (hlt : p < (Nat.toDigits 10 n).length) :
    ∃ l : Literal, l.Prints
      (bytesOf ((Nat.toDigits 10 n).take p ++ '.' :: (Nat.toDigits 10 n).drop p))
      (n * 10 ^ ((p : ℤ) - (Nat.toDigits 10 n).length)) := by
  obtain ⟨l, hpositive, hbytes, hmagnitude⟩ := exists_literal_of_digits
    ((Nat.toDigits 10 n).take p) ((Nat.toDigits 10 n).drop p) none
    (by simp [Nat.toDigits_ne_nil, hp.ne'])
    (fun c hc => isDigit_of_mem_toDigits c (List.mem_of_mem_take hc))
    (fun h => absurd h (by rw [List.head?_take, if_neg hp.ne']; exact head?_toDigits hn))
    (fun c hc => isDigit_of_mem_toDigits c (List.mem_of_mem_drop hc))
  have hdrop : (Nat.toDigits 10 n).drop p ≠ [] := by simpa using hlt
  refine ⟨l, hpositive, by simpa [hdrop] using hbytes, hmagnitude.trans ?_⟩
  rw [List.take_append_drop, Nat.ofDigitChars_ten_toDigits, List.length_drop,
    Nat.cast_sub hlt.le]
  simp

/-- Zeros between the point and the first digit. -/
theorem exists_literal_small (n z : ℕ) :
    ∃ l : Literal, l.Prints
      (bytesOf ('0' :: '.' :: List.replicate z '0' ++ Nat.toDigits 10 n))
      (n * 10 ^ (-((z : ℤ) + (Nat.toDigits 10 n).length))) := by
  obtain ⟨l, hpositive, hbytes, hmagnitude⟩ := exists_literal_of_digits
    ['0'] (List.replicate z '0' ++ Nat.toDigits 10 n) none
    (by simp) (by simp) (by simp)
    (fun c hc => (List.mem_append.1 hc).elim (fun h => by rw [(List.mem_replicate.1 h).2]; rfl)
      (isDigit_of_mem_toDigits c))
  refine ⟨l, hpositive, by simpa [Nat.toDigits_ne_nil] using hbytes, hmagnitude.trans ?_⟩
  have hnat : Nat.ofDigitChars 10 (['0'] ++ (List.replicate z '0' ++ Nat.toDigits 10 n)) 0 = n := by
    simp [Nat.ofDigitChars_append, Nat.ofDigitChars_cons]
  rw [hnat]
  simp

/-- One digit before the point, and an exponent. -/
theorem exists_literal_scientific {c : Char} {cs : List Char}
    (hdigits : Nat.toDigits 10 n = c :: cs) (e : ℤ) :
    ∃ l : Literal, l.Prints
      (bytesOf (c :: (if cs = [] then [] else '.' :: cs) ++ 'e' :: exponentText e))
      (n * 10 ^ (e - cs.length)) := by
  have hall := isDigit_of_mem_toDigits (n := n)
  rw [hdigits] at hall
  obtain ⟨l, hpositive, hbytes, hmagnitude⟩ := exists_literal_of_digits
    [c] cs (some (printedExponent e)) (by simp) (by simpa using hall c)
    (by simp) (fun d hd => hall d (by simp [hd]))
  refine ⟨l, hpositive, hbytes.trans ?_, hmagnitude.trans ?_⟩
  · simp only [Option.map_some, Option.getD_some, bytes_printedExponent, ← bytesOf_append]
    rfl
  · rw [List.singleton_append, ← hdigits, Nat.ofDigitChars_ten_toDigits]
    simp [value_printedExponent]

end Layouts

/-- In every layout a positive decimal is written as a literal that denotes it. -/
theorem Layout.exists_literal (l : Layout) {d : Shortest.Decimal} (hd : 0 < d.digits) :
    ∃ lit : Literal, lit.Prints (bytesOf (l.write d)) (d.digits * 10 ^ d.exponent) := by
  have hlength : 0 < (Nat.toDigits 10 d.digits).length := Nat.length_toDigits_pos
  unfold write
  extract_lets digits point
  split_ifs with hwhole hsplit hsmall
  · obtain ⟨k, hk⟩ := Int.eq_ofNat_of_zero_le hwhole.1
    simpa [hk] using exists_literal_whole hd k
  · obtain ⟨p, hp⟩ := Int.eq_ofNat_of_zero_le hsplit.1.le
    have hexponent : d.exponent = p - digits.length := by omega
    rw [hp, hexponent]
    exact exists_literal_split hd (by omega) (by show p < digits.length; omega)
  · obtain ⟨z, hz⟩ := Int.eq_ofNat_of_zero_le (neg_nonneg.2 hsmall.2)
    have hexponent : d.exponent = -(z + digits.length) := by omega
    rw [hz, hexponent]
    exact exists_literal_small d.digits z
  · cases hcs : digits with
    | nil => exact absurd hcs Nat.toDigits_ne_nil
    | cons c cs =>
      have hexponent : d.exponent = point - 1 - cs.length := by
        simp only [point, hcs, List.length_cons]
        omega
      have := exists_literal_scientific hcs (point - 1)
      rw [hexponent]
      cases cs with
      | nil => exact this
      | cons c' cs => exact this

/-- The number that the text of a magnitude denotes. -/
def shownMagnitude (x : Shortest.Binary) : ℚ :=
  if x.mantissa = 0 then 0 else (Shortest.decimal x).toRat

/-- The number that the text of a number denotes. -/
def Number.shown : Number → ℚ
  | .integer n => n
  | .float x =>
    let magnitude := shownMagnitude (.ofBits x.toBits)
    if Shortest.isNegative x.toBits then -magnitude else magnitude

/-- A literal is how a number is printed. -/
structure Number.PrintedAs (n : Number) (l : Literal) : Prop where
  bytes_eq : l.bytes = bytesOf n.text
  toRat_eq : l.toRat = n.shown

/-- A literal with a minus sign. -/
theorem Literal.Prints.exists_signed {l : Literal} {bytes : Bytes} {magnitude : ℚ}
    (h : l.Prints bytes magnitude) (negative : Bool) :
    ∃ l' : Literal, l'.bytes = (if negative then 0x2D :: bytes else bytes) ∧
      l'.toRat = if negative then -magnitude else magnitude := by
  obtain ⟨hpositive, rfl, rfl⟩ := h
  cases negative with
  | false => exact ⟨l, rfl, by rw [Literal.toRat, hpositive]⟩
  | true =>
    refine ⟨{ l with negative := true }, ?_, rfl⟩
    simp [Literal.bytes, Literal.signBytes, hpositive, Literal.fractionBytes,
      Literal.exponentBytes]

theorem exists_literal_magnitude (x : Shortest.Binary) :
    ∃ l : Literal, l.Prints (bytesOf (if x.mantissa = 0 then ['0', '.', '0']
      else layout.write (Shortest.decimal x))) (shownMagnitude x) := by
  unfold shownMagnitude
  split_ifs with h
  · obtain ⟨l, hpositive, hbytes, hmagnitude⟩ := exists_literal_of_digits
      ['0'] ['0'] none (by simp) (by simp) (by simp) (by simp)
    exact ⟨l, hpositive, by simpa using hbytes, by simpa [Nat.ofDigitChars_cons] using hmagnitude⟩
  · exact layout.exists_literal (Shortest.digits_decimal_pos (Nat.pos_of_ne_zero h))

/-- The digits of a number start with a zero only if it is zero. -/
theorem digitBytes_eq_zero {n : ℕ} (h : (digitBytes n).head? = some 0x30) :
    digitBytes n = [0x30] := by
  have hfirst := head?_of_map_asciiByte isDigit_of_mem_toDigits h
  rcases Nat.eq_zero_or_pos n with rfl | hn
  · rfl
  · exact absurd hfirst (head?_toDigits hn)

theorem isDigit_of_mem_nil : ∀ b ∈ ([] : Bytes), isDigit b = true := by
  simp

/-- The literal of an integer. -/
def Literal.ofInt (n : ℤ) : Literal where
  negative := decide (n < 0)
  whole := digitBytes n.natAbs
  fraction := []
  exponent? := none
  whole_ne_nil := digitBytes_ne_nil _
  isDigit_whole := isDigit_digitBytes _
  whole_eq := digitBytes_eq_zero
  isDigit_fraction := isDigit_of_mem_nil

theorem Literal.magnitude_ofInt (n : ℤ) : (ofInt n).magnitude = n.natAbs := by
  simp [magnitude, digits, scale, ofInt, decimal_digitBytes]

/-- An integer is printed as its literal. -/
theorem Number.printedAs_ofInt (n : ℤ) : (Number.integer n).PrintedAs (.ofInt n) where
  bytes_eq := by
    have hdigits : bytesOf (Nat.toDigits 10 n.natAbs) = digitBytes n.natAbs :=
      bytesOf_digits isDigit_of_mem_toDigits
    by_cases h : n < 0
    · have htext : bytesOf (Number.integer n).text = 0x2D :: digitBytes n.natAbs := by
        rw [Number.text, if_pos h, ← List.singleton_append, bytesOf_append, hdigits]
        rfl
      simp [htext, Literal.bytes, Literal.signBytes, Literal.ofInt, h, Literal.fractionBytes,
        Literal.exponentBytes]
    · simp [Literal.bytes, Literal.signBytes, Literal.ofInt, h, Literal.fractionBytes,
        Literal.exponentBytes, Number.text, hdigits]
  toRat_eq := by
    rw [Literal.toRat, Literal.magnitude_ofInt]
    by_cases h : n < 0
    · simp [Literal.ofInt, h, shown, abs_of_neg h]
    · simp [Literal.ofInt, h, shown, abs_of_nonneg (not_lt.1 h)]

/-- Every number is printed as a literal. -/
theorem Number.exists_printedAs (n : Number) : ∃ l, n.PrintedAs l := by
  cases n with
  | integer n => exact ⟨.ofInt n, printedAs_ofInt n⟩
  | float x =>
    obtain ⟨l, hl⟩ := exists_literal_magnitude (.ofBits x.toBits)
    obtain ⟨l', hbytes, hvalue⟩ := hl.exists_signed (Shortest.isNegative x.toBits)
    refine ⟨l', hbytes.trans ?_, hvalue⟩
    simp only [Number.text, floatText]
    cases Shortest.isNegative x.toBits <;> rfl

/-! ## Strings -/

/-- The bytes of a character beyond ASCII are beyond ASCII. -/
theorem le_of_mem_utf8EncodeChar {c : Char} (h : 128 ≤ c.toNat) :
    ∀ b ∈ String.utf8EncodeChar c, 128 ≤ b.toNat := by
  have h' : 128 ≤ c.val.toNat := h
  simp only [String.utf8EncodeChar]
  split_ifs
  · omega
  all_goals
    simp only [List.forall_mem_cons, UInt8.toNat_ofNat', Nat.reducePow]
    simp
    omega

theorem Unescapes.bytes {as bs out : Bytes} (h : Unescapes bs out)
    (has : ∀ b ∈ as, 0x20 ≤ b ∧ b ≠ 0x22 ∧ b ≠ 0x5C) : Unescapes (as ++ bs) (as ++ out) := by
  induction as with
  | nil => exact h
  | cons a as ih =>
    obtain ⟨hcontrol, hquote, hbackslash⟩ := has a (by simp)
    exact .byte hcontrol hquote hbackslash (ih fun b hb => has b (by simp [hb]))

/-- The digits of a code unit are no control characters, and ASCII. -/
theorem IsUnit.bounds {ds : Bytes} {u : ℕ} (h : IsUnit ds u) : ∀ b ∈ ds, 0x20 ≤ b ∧ b < 0x80 := by
  intro b hb
  have := h.isHexDigit b hb
  simp only [Json.isHexDigit, isDigit, Bool.or_eq_true, Bool.and_eq_true, decide_eq_true_eq,
    UInt8.le_iff_toNat_le] at this
  rw [UInt8.le_iff_toNat_le, UInt8.lt_iff_toNat_lt]
  rcases this with (h | h) | h <;>
    exact ⟨Nat.le_trans (by decide) h.1, Nat.lt_of_le_of_lt h.2 (by decide)⟩

/-- A control character is escaped by its number. -/
theorem isUnit_control {c : Char} (h : c.toNat < 32) :
    IsUnit (bytesOf ['0', '0', hexDigit (c.toNat / 16), hexDigit (c.toNat % 16)]) c.toNat := by
  have hall : ∀ n < 32, (bytesOf ['0', '0', hexDigit (n / 16), hexDigit (n % 16)]).length = 4 ∧
      (bytesOf ['0', '0', hexDigit (n / 16), hexDigit (n % 16)]).all isHexDigit = true ∧
      hexadecimal (bytesOf ['0', '0', hexDigit (n / 16), hexDigit (n % 16)]) = n := by
    decide
  obtain ⟨hlength, hhex, heq⟩ := hall c.toNat h
  exact ⟨hlength, List.all_eq_true.1 hhex, heq⟩

/-- A character is escaped so that it stands for itself. -/
theorem unescapes_escape (c : Char) {bs out : Bytes} (h : Unescapes bs out) :
    Unescapes (bytesOf (escape c) ++ bs) (String.utf8EncodeChar c ++ out) := by
  unfold escape
  split
  iterate 7 exact .letter (by decide) h
  next hquote hbackslash hb hf hn hr ht =>
    split
    · next hcontrol =>
      have := Unescapes.unit (isUnit_control hcontrol) (by simp [IsLead]; omega)
        (by simp [IsTrail]; omega) h
      rwa [Char.ofNat_toNat] at this
    · next hcontrol =>
      rw [show bytesOf [c] = String.utf8EncodeChar c from List.append_nil _]
      refine h.bytes fun b hb => ?_
      rcases Nat.lt_or_ge c.toNat 128 with hlt | hge
      · rw [utf8EncodeChar_of_lt hlt, List.mem_singleton] at hb
        subst hb
        have hne : ∀ d : Char, c ≠ d → d.toNat < 128 → asciiByte c ≠ asciiByte d := by
          intro d hcd hd heq
          have := congrArg UInt8.toNat heq
          rw [toNat_asciiByte hlt, toNat_asciiByte hd] at this
          exact hcd (Char.ext (UInt32.toNat_inj.1 this))
        refine ⟨?_, hne '"' hquote (by decide), hne '\\' hbackslash (by decide)⟩
        rw [UInt8.le_iff_toNat_le, toNat_asciiByte hlt]
        exact not_lt.1 hcontrol
      · have hb' := le_of_mem_utf8EncodeChar hge b hb
        refine ⟨UInt8.le_iff_toNat_le.2 (le_trans (by decide) hb'), ?_, ?_⟩ <;>
          (rintro rfl; revert hb'; decide)

theorem unescapes_flatMap_escape (cs : List Char) :
    Unescapes (bytesOf (cs.flatMap escape)) (bytesOf cs) := by
  induction cs with
  | nil => exact .nil
  | cons c cs ih =>
    rw [List.flatMap_cons, bytesOf_append]
    exact unescapes_escape c ih

/-- A string literal denotes its text. -/
theorem quotes_escape (s : String) : Quotes (bytesOf (s.toList.flatMap escape)) s :=
  unescapes_flatMap_escape s.toList

theorem bytesOf_quote (s : String) :
    bytesOf (quote s) = 0x22 :: (bytesOf (s.toList.flatMap escape) ++ [0x22]) := by
  rw [quote, List.cons_append, ← List.singleton_append, bytesOf_append, bytesOf_append]
  rfl

/-! ## Values -/

/-- The bytes start with a spelling of the phrase, whatever comes after them. -/
def Wrote (p : Phrase Literal) (cs : List Char) : Prop :=
  ∀ rest, Spells Quotes p (bytesOf cs ++ rest) rest

namespace Wrote

variable {t : Value Literal} {ts : List (Value Literal)} {ms : Members Literal} {cs ds : List Char}
  {key : String}

theorem item (h : Wrote (.value t) cs) (hs : Wrote (.moreItems ts) ds) :
    Wrote (.moreItems (t :: ts)) (',' :: cs ++ ds) := fun rest => by
  show Spells Quotes _ (0x2C :: (bytesOf (cs ++ ds) ++ rest)) rest
  rw [bytesOf_append, List.append_assoc]
  exact .nextItem (h _) (hs rest)

theorem member (h : Wrote (.value t) cs) (key : String) :
    Wrote (.member key t) (quote key ++ ':' :: cs) := fun rest => by
  rw [bytesOf_append, bytesOf_quote, List.append_assoc, List.cons_append, List.append_assoc]
  exact .member (quotes_escape key) (.colon (h rest))

theorem moreMembers (h : Wrote (.value t) cs) (hs : Wrote (.moreMembers ms) ds) (key : String) :
    Wrote (.moreMembers ((key, t) :: ms)) (',' :: quote key ++ ':' :: cs ++ ds) := fun rest => by
  show Spells Quotes _ (0x2C :: (bytesOf (quote key ++ ':' :: cs ++ ds) ++ rest)) rest
  rw [bytesOf_append, List.append_assoc]
  exact .nextMember (h.member key _) (hs rest)

theorem array (h : Wrote (.value t) cs) (hs : Wrote (.moreItems ts) ds) :
    Wrote (.value (.array (t :: ts))) ('[' :: cs ++ ds) := fun rest => by
  show Spells Quotes _ (0x5B :: (bytesOf (cs ++ ds) ++ rest)) rest
  rw [bytesOf_append, List.append_assoc]
  exact .array ((h _).items (hs rest))

theorem object (h : Wrote (.value t) cs) (hs : Wrote (.moreMembers ms) ds) (key : String) :
    Wrote (.value (.object ((key, t) :: ms))) ('{' :: quote key ++ ':' :: cs ++ ds) :=
  fun rest => by
  show Spells Quotes _ (0x7B :: (bytesOf (quote key ++ ':' :: cs ++ ds) ++ rest)) rest
  rw [bytesOf_append, List.append_assoc]
  exact .object ((h.member key _).members (hs rest))

end Wrote

section

variable {f : Number → Literal}

mutual

/-- The text of a value spells it, with its numbers as they are printed. -/
theorem Value.wrote_map (hf : ∀ n : Number, n.PrintedAs (f n)) :
    ∀ v : Value, Wrote (.value (v.map f)) v.text
  | .null => fun rest => .word (.head _) rest
  | .bool true => fun rest => .word (.tail _ (.head _)) rest
  | .bool false => fun rest => .word (.tail _ (.tail _ (.head _))) rest
  | .number n => fun rest => (hf n).bytes_eq ▸ .number (f n) rest
  | .string s => fun rest => by
    rw [text, bytesOf_quote, List.cons_append, List.append_assoc]
    exact .string (quotes_escape s) rest
  | .array [] => fun rest => .array (.noItems rest)
  | .array (v :: vs) => (Value.wrote_map hf v).array (Value.wrote_items hf vs)
  | .object [] => fun rest => .object (.noMembers rest)
  | .object ((key, v) :: vs) => (Value.wrote_map hf v).object (Value.wrote_members hf vs) key

theorem Value.wrote_items (hf : ∀ n : Number, n.PrintedAs (f n)) :
    ∀ vs : List Value, Wrote (.moreItems (itemsWith id f vs)) (itemsText vs)
  | [] => fun rest => .endItems rest
  | v :: vs => (Value.wrote_map hf v).item (Value.wrote_items hf vs)

theorem Value.wrote_members (hf : ∀ n : Number, n.PrintedAs (f n)) :
    ∀ vs : Members, Wrote (.moreMembers (membersWith id f vs)) (membersText vs)
  | [] => fun rest => .endMembers rest
  | (key, v) :: vs => (Value.wrote_map hf v).moreMembers (Value.wrote_members hf vs) key

end

/-- What is printed is a JSON text of the value, with its numbers as they are printed. -/
theorem Value.denotes_print_map (hf : ∀ n : Number, n.PrintedAs (f n)) (v : Value) :
    Denotes v.print (v.map f) := by
  refine ⟨[], ?_, by simp⟩
  rw [← List.append_nil v.print]
  exact v.wrote_map hf []

end

/-- What is printed is a JSON text. It denotes a value that matches the one printed, whose numbers
are literals that denote what the numbers show. -/
theorem Value.denotes_print (v : Value) :
    ∃ t, Denotes v.print t ∧ v.Matches Number.PrintedAs t := by
  choose f hf using Number.exists_printedAs
  exact ⟨v.map f, v.denotes_print_map hf, (v.matches_map f).mono fun n _ h => h ▸ hf n⟩

end FramedRelay.Json
