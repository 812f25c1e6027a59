import FramedRelay.Proofs.Json.Numerals
import FramedRelay.Proofs.Json.Printing
import FramedRelay.Proofs.Number.Scaling

/-!
# Numbers that are read and printed

A number that is read and printed again is the same number if it is an integer of 64 bits, or if it
has few digits and a small exponent. Any other number is close to what it was, unless it has
billions of digits before the point (`Literal.Kept`).

The sign of a number is never lost, so everything is about magnitudes (`Literal.KeptAs`). A
magnitude that is not kept as an integer goes through a few roundings: digits are dropped, the ones
left are rounded and scaled, and what comes of that is printed as a decimal that rounds to it. If
the digits are few, none is dropped and the scaling rounds once, so that the decimal printed is the
one that was read (`Shortest.decimal_of_contains`).
-/

namespace FramedRelay.Json

open Shortest (Represents Scaled Close Binary leadingBit)

/-! ## What is shown of a magnitude -/

section

variable {a : Binary} {y : Float} {c : ℕ} {j : ℤ}

/-- What is shown is a rounding away. -/
theorem close_shownMagnitude (h : a.Canonical) :
    Close 1 Binary.tiny a.toRat (shownMagnitude a) := by
  refine Shortest.close_of_abs_sub_le ?_ a.toRat_nonneg Binary.tiny_pos.le
  unfold shownMagnitude
  split_ifs with hzero
  · rw [Binary.toRat_eq_zero hzero]
    simpa using Binary.tiny_pos.le
  · exact (Shortest.abs_sub_decimal_le (Nat.pos_of_ne_zero hzero)).trans h.half_ulp_le

/-- A decimal of few digits and a small exponent is shown as it was rounded. -/
theorem shownMagnitude_of_contains (h : a.Canonical) (he : a.exponent ≤ Shortest.exponentLimit)
    (hc : c < 10 ^ 15) (hj : |j| ≤ 22) (hcontains : a.Contains (c * 10 ^ j)) :
    shownMagnitude a = c * 10 ^ j := by
  unfold shownMagnitude
  rcases Nat.eq_zero_or_pos c with rfl | hpos
  · rw [Nat.cast_zero, zero_mul] at hcontains ⊢
    rw [if_pos (h.mantissa_eq_zero hcontains Binary.tiny_pos)]
  · have hlarge : (1 / 2 ^ 1021 : ℚ) ≤ c * 10 ^ j :=
      calc (1 / 2 ^ 1021 : ℚ) ≤ 1 / 2 ^ 100 :=
            one_div_le_one_div_of_le (by positivity) (pow_le_pow_right₀ (by norm_num) (by norm_num))
        _ ≤ 10 ^ (-22 : ℤ) := by norm_num
        _ ≤ 10 ^ j := zpow_le_zpow_right₀ (by norm_num) (abs_le.1 hj).1
        _ ≤ c * 10 ^ j := le_mul_of_one_le_left (by positivity) (by exact_mod_cast hpos)
    have hleading := h.leadingBit_le hcontains hlarge
    rw [if_neg (Nat.pos_iff_ne_zero.1 (lt_of_lt_of_le (by decide) hleading))]
    exact Shortest.decimal_of_contains hleading h.mantissa_lt h.exponent_ge he hc hcontains

theorem represents_zero : Represents 0 .positive ⟨0, -1074⟩ :=
  ⟨by decide +kernel, congrArg Shortest.signOf (by decide +kernel : _ = false), by decide +kernel,
    by decide, le_rfl, Or.inl rfl⟩

/-- The sign of a number is shown before its magnitude. -/
theorem shown_signed (h : Represents y .positive a) (negative : Bool) :
    (Number.float (if negative then -y else y)).shown =
      if negative then -shownMagnitude a else shownMagnitude a := by
  have hshown : ∀ {x : Float} {sign}, Represents x sign a → Shortest.signOf negative = sign →
      (Number.float x).shown = if negative then -shownMagnitude a else shownMagnitude a := by
    intro x sign hx hsign
    have hsign' : Shortest.isNegative x.toBits = negative := by
      have := hx.sign_eq.trans hsign.symm
      revert this
      cases Shortest.isNegative x.toBits <;> cases negative <;> simp [Shortest.signOf]
    simp only [Number.shown, hx.ofBits_eq, hsign']
  cases negative with
  | false => exact hshown h rfl
  | true => exact hshown h.neg rfl

end

/-! ## What is kept of a magnitude -/

/-- An integer that 64 bits hold with its sign. -/
def Literal.IsWord (l : Literal) : Prop :=
  l.IsInteger ∧ l.digits < 2 ^ 64 ∧ (l.negative = true → l.digits ≤ 2 ^ 63)

/-- What is shown in the end for the magnitude of a number that is read. -/
structure Literal.KeptAs (l : Literal) (m : ℚ) : Prop where
  word : l.IsWord → m = l.magnitude
  short : l.digits < 10 ^ 15 → |l.scale| ≤ 22 → m = l.magnitude
  close : l.whole.length + 324 ≤ 2 ^ 31 → |m - l.magnitude| ≤ l.magnitude / 2 ^ 50 + 1 / 2 ^ 1073

namespace Literal

variable {l : Literal} {m : ℚ}

theorem magnitude_nonneg (l : Literal) : 0 ≤ l.magnitude := by
  unfold magnitude
  positivity

theorem IsInteger.scale_eq (h : l.IsInteger) : l.scale = 0 := by
  rw [scale, h.1, h.2]
  rfl

theorem IsInteger.magnitude_eq (h : l.IsInteger) : l.magnitude = l.digits := by
  rw [magnitude, h.scale_eq, zpow_zero, mul_one]

/-- 64 bits hold an integer in their range with its sign. -/
theorem IsInteger.isWord (h : l.IsInteger) (hmin : -2 ^ 63 ≤ l.toRat) (hmax : l.toRat < 2 ^ 64) :
    l.IsWord := by
  refine ⟨h, ?_⟩
  unfold toRat at hmin hmax
  cases hn : l.negative with
  | false =>
    simp only [hn, h.magnitude_eq, Bool.false_eq_true, if_false] at hmax
    exact ⟨by exact_mod_cast hmax, by simp⟩
  | true =>
    simp only [hn, h.magnitude_eq, if_true, neg_le_neg_iff] at hmin
    have hle : l.digits ≤ 2 ^ 63 := by exact_mod_cast hmin
    exact ⟨hle.trans_lt (by norm_num), fun _ => hle⟩

theorem KeptAs.of_eq (h : m = l.magnitude) : l.KeptAs m := by
  refine ⟨fun _ => h, fun _ _ => h, fun _ => ?_⟩
  rw [h, sub_self, abs_zero]
  have := l.magnitude_nonneg
  positivity

/-- The digits dropped make one rounding. -/
theorem close_magnitude {significand dropped : ℕ}
    (h : Numeral.Gathered significand dropped l.digits) :
    Close 1 0 (significand * 10 ^ (dropped + l.scale)) l.magnitude := by
  refine Shortest.close_of_abs_sub_le ?_ (by positivity) le_rfl
  have hsplit : (significand : ℚ) * 10 ^ (dropped + l.scale) =
      significand * 10 ^ dropped * 10 ^ l.scale := by
    rw [zpow_add₀ (by norm_num), zpow_natCast, mul_assoc]
  have hten : (0 : ℚ) < 10 ^ l.scale := by positivity
  have habs :
      |(l.digits : ℚ) - significand * 10 ^ dropped| ≤ significand * 10 ^ dropped / 2 ^ 53 := by
    have hdropped := h.abs_sub_le
    rw [← le_div_iff₀ (by positivity)] at hdropped
    exact hdropped.trans (div_le_div_of_nonneg_left (by positivity) (by positivity)
      (pow_le_pow_right₀ (by norm_num) (by norm_num)))
  rw [hsplit, magnitude, ← sub_mul, abs_mul, abs_of_pos hten, add_zero, ← div_mul_eq_mul_div]
  exact mul_le_mul_of_nonneg_right habs hten.le

/-- A magnitude that is rounded and scaled. No integer of 64 bits has its digits rounded, except
zero with a minus sign. -/
theorem exists_keptAs_of_scaled {y : Float} {significand dropped : ℕ} {e : ℤ}
    (hgathered : Numeral.Gathered significand dropped l.digits) (he : e = dropped + l.scale)
    (hscaled : Scaled y significand (significand * 10 ^ e) (|e| ≤ 22))
    (hword : l.IsWord → l.digits < 10 ^ 15) :
    ∃ a, Represents y .positive a ∧ l.KeptAs (shownMagnitude a) := by
  obtain ⟨a, ha, hclose, hcontains⟩ := hscaled
  have hshort : l.digits < 10 ^ 15 → |l.scale| ≤ 22 → shownMagnitude a = l.magnitude := by
    intro hdigits hscale
    obtain ⟨rfl, rfl⟩ := hgathered.eq_of_lt hdigits
    obtain rfl : e = l.scale := by simpa using he
    exact shownMagnitude_of_contains ha.canonical ha.exponent_le hdigits hscale
      (hcontains hscale hdigits)
  refine ⟨a, ha, fun h => hshort (hword h) (by simp [h.1.scale_eq]), hshort, fun _ => ?_⟩
  have hshown := close_shownMagnitude ha.canonical
  have hpos := Binary.tiny_pos
  have hnonneg : 0 ≤ shownMagnitude a := by
    unfold shownMagnitude Shortest.Decimal.toRat
    split_ifs <;> positivity
  have hvalue : (0 : ℚ) ≤ significand * 10 ^ e := by positivity
  have hdropped : Close 1 0 (significand * 10 ^ e) l.magnitude := he ▸ close_magnitude hgathered
  have hrounded := hshown.symm.trans hclose hnonneg hvalue hpos.le (by linarith) (by norm_num)
    (by norm_num)
  have hall := hrounded.trans hdropped hnonneg l.magnitude_nonneg
    (by linarith) le_rfl (by norm_num) (by norm_num)
  refine Close.abs_sub_le ?_ l.magnitude_nonneg
  rwa [show Binary.tiny + 2 * Binary.tiny + 0 = 3 * Binary.tiny by ring] at hall

/-- Nothing is kept of the magnitude of a number with an exponent far below zero. -/
theorem keptAs_zero (h : (l.exponent?.map Exponent.value).getD 0 ≤ -(2 ^ 31)) : l.KeptAs 0 := by
  have hlength : l.scale ≤ -(2 ^ 31) := by
    unfold scale
    omega
  refine ⟨fun hl => ?_, fun _ hscale => ?_, fun hwhole => ?_⟩
  · rw [hl.1.scale_eq] at hlength
    norm_num at hlength
  · have := (abs_le.1 hscale).1
    omega
  · have hdigits : (l.digits : ℚ) ≤ 10 ^ (l.whole.length + l.fraction.length) := by
      have hlt : l.digits < 10 ^ (l.whole ++ l.fraction).length := decimal_lt fun b hb =>
        (List.mem_append.1 hb).elim (l.isDigit_whole b) (l.isDigit_fraction b)
      rw [List.length_append] at hlt
      exact_mod_cast hlt.le
    have hsmall : (10 : ℚ) ^ (-324 : ℤ) ≤ 1 / 2 ^ 1073 := by
      rw [show (-324 : ℤ) = -((324 : ℕ) : ℤ) from rfl, zpow_neg, zpow_natCast, ← one_div]
      refine one_div_le_one_div_of_le (by positivity) ?_
      calc (2 : ℚ) ^ 1073 = (2 ^ 93) ^ 11 * 2 ^ 50 := by rw [← pow_mul, ← pow_add]
        _ ≤ (10 ^ 28) ^ 11 * 10 ^ 16 :=
          mul_le_mul (pow_le_pow_left₀ (by norm_num) (by norm_num) 11) (by norm_num)
            (by positivity) (by positivity)
        _ = 10 ^ 324 := by rw [← pow_mul, ← pow_add]
    have hmagnitude : l.magnitude ≤ 1 / 2 ^ 1073 :=
      calc l.magnitude
          ≤ 10 ^ (l.whole.length + l.fraction.length) * 10 ^ l.scale :=
            mul_le_mul_of_nonneg_right hdigits (by positivity)
        _ = 10 ^ (((l.whole.length + l.fraction.length : ℕ) : ℤ) + l.scale) := by
            rw [zpow_add₀ (by norm_num), zpow_natCast]
        _ ≤ 10 ^ (-324 : ℤ) := zpow_le_zpow_right₀ (by norm_num) (by unfold scale; push_cast; omega)
        _ ≤ 1 / 2 ^ 1073 := hsmall
    have hnonneg := l.magnitude_nonneg
    rw [zero_sub, abs_neg, abs_of_nonneg hnonneg]
    exact hmagnitude.trans (le_add_of_nonneg_left (by positivity))

end Literal

namespace Numeral

/-- What a number can be kept as. -/
inductive Becomes (n : Numeral) : Number → Prop
  | integer (h : n.isInteger = true) :
    Becomes n (.integer (if n.negative then -n.significand else n.significand))
  /-- An integer that 64 bits do not hold with its sign. -/
  | unsigned (h : n.isInteger = true) (hnegative : n.negative = true)
      (hsize : n.significand = 0 ∨ 2 ^ 63 < n.significand) :
    Becomes n (.float (if n.negative then -(UInt64.ofNat n.significand).toFloat
      else (UInt64.ofNat n.significand).toFloat))
  | vanished (h : n.isInteger = false) (hvanished : n.vanished = true) :
    Becomes n (.float (if n.negative then -0 else 0))
  | scaled (h : n.isInteger = false) (hvanished : n.vanished = false) {y : Float}
      (hy : scaled? n.significand n.finalExponent = some y) :
    Becomes n (.float (if n.negative then -y else y))

theorem becomes_of_value? {n : Numeral} {x : Number} (h : n.value? = some x) : n.Becomes x := by
  simp only [value?] at h
  by_cases hinteger : n.isInteger = true
  · rw [if_pos hinteger] at h
    by_cases hnegative : n.negative = true
    · by_cases hsize : n.significand = 0 ∨ UInt64.size / 2 < n.significand
      · have := Becomes.unsigned hinteger hnegative hsize
        simp only [hnegative, hsize, Bool.not_true, Bool.false_eq_true, if_false, if_true] at h this
        exact Option.some.inj h ▸ this
      · have := Becomes.integer hinteger
        simp only [hnegative, hsize, Bool.not_true, Bool.false_eq_true, if_false, if_true] at h this
        exact Option.some.inj h ▸ this
    · have := Becomes.integer hinteger
      simp only [hnegative, Bool.false_eq_true, if_false] at h this
      exact Option.some.inj h ▸ this
  · rw [if_neg hinteger] at h
    have hinteger' : n.isInteger = false := by simpa using hinteger
    split at h
    · next hvanished => exact Option.some.inj h ▸ .vanished hinteger' hvanished
    · next hvanished =>
      obtain ⟨y, hy, rfl⟩ := Option.map_eq_some_iff.1 h
      exact .scaled hinteger' (by simpa using hvanished) hy

end Numeral

namespace Numeral.Takes

variable {n : Numeral} {l : Literal}

theorem isInteger (h : n.Takes l) (hinteger : n.isInteger = true) :
    l.IsInteger ∧ n.significand = l.digits := by
  simp only [Numeral.isInteger, Bool.and_eq_true, Bool.or_eq_true, beq_iff_eq,
    Bool.not_eq_true'] at hinteger
  have hl := h.isInteger_iff.1 hinteger.1
  exact ⟨hl, h.exact hl hinteger.2⟩

/-- An integer is not kept as one only if it has more than 64 bits. -/
theorem not_isWord (h : n.Takes l) (hinteger : n.isInteger = false) : ¬l.IsWord := by
  rintro ⟨hl, hdigits, -⟩
  have hphase := h.isInteger_iff.2 hl
  have hfull : n.full = true := by
    simpa [Numeral.isInteger, hphase] using hinteger
  exact absurd (h.full hl hfull) (not_le.2 hdigits)

/-- Zero with a minus sign, and an integer below those of 64 bits, are kept as their floats. -/
theorem exists_keptAs_of_unsigned (h : n.Takes l) (hinteger : n.isInteger = true)
    (hnegative : n.negative = true) (hsize : n.significand = 0 ∨ 2 ^ 63 < n.significand) :
    ∃ a, Represents (UInt64.ofNat n.significand).toFloat .positive a ∧
      l.KeptAs (shownMagnitude a) := by
  obtain ⟨hl, hdigits⟩ := h.isInteger hinteger
  have hsmall : l.IsWord → l.digits < 10 ^ 15 := fun hword => by
    have := hword.2.2 (h.negative_eq ▸ hnegative)
    omega
  have hgathered : Gathered n.significand 0 l.digits := hdigits ▸ .refl _
  have hscaled : Scaled (UInt64.ofNat n.significand).toFloat n.significand
      (n.significand * 10 ^ (0 : ℤ)) (|(0 : ℤ)| ≤ 22) := by
    rw [zpow_zero, mul_one]
    exact Shortest.scaled_toFloat h.fits _
  exact Literal.exists_keptAs_of_scaled hgathered (by simp [hl.scale_eq]) hscaled hsmall

theorem keptAs_of_vanished (h : n.Takes l) (hvanished : n.vanished = true) : l.KeptAs 0 := by
  rcases h.exponent with ⟨hno, -⟩ | ⟨-, hzero | hfar⟩
  · rw [hno] at hvanished
    cases hvanished
  · obtain ⟨dropped, -, hgathered⟩ := h.gathered
    rw [hzero] at hgathered
    exact .of_eq (by simp [Literal.magnitude, hgathered.eq_zero])
  · exact Literal.keptAs_zero hfar

theorem exists_keptAs_of_scaled (h : n.Takes l) (hinteger : n.isInteger = false)
    (hvanished : n.vanished = false) {y : Float}
    (hy : scaled? n.significand n.finalExponent = some y) :
    ∃ a, Represents y .positive a ∧ l.KeptAs (shownMagnitude a) := by
  obtain ⟨dropped, hscale, hgathered⟩ := h.gathered
  have hexponent : n.finalExponent = dropped + l.scale := by
    rcases h.exponent with ⟨-, h⟩ | ⟨h, -⟩
    · rw [h, hscale, Literal.scale]
      ring
    · rw [h] at hvanished
      cases hvanished
  exact Literal.exists_keptAs_of_scaled hgathered hexponent
    (Shortest.scaled_scaled? h.fits hy) fun hword => absurd hword (h.not_isWord hinteger)

end Numeral.Takes

/-- What is kept of a number has the sign of the number. -/
theorem Literal.Keeps.exists_shown {l : Literal} {x : Number} (h : l.Keeps x) :
    ∃ m, x.shown = (if l.negative then -m else m) ∧ l.KeptAs m := by
  obtain ⟨n, hwhole, hvalue⟩ := Option.bind_eq_some_iff.1 h
  have htakes := Numeral.takes_of_whole? hwhole
  rw [← htakes.negative_eq]
  cases Numeral.becomes_of_value? hvalue with
  | integer hinteger =>
    obtain ⟨hl, hdigits⟩ := htakes.isInteger hinteger
    refine ⟨l.digits, ?_, .of_eq hl.magnitude_eq.symm⟩
    rw [Number.shown, hdigits]
    split <;> simp
  | unsigned hinteger hnegative hsize =>
    obtain ⟨a, ha, hkept⟩ := htakes.exists_keptAs_of_unsigned hinteger hnegative hsize
    exact ⟨_, shown_signed ha n.negative, hkept⟩
  | vanished _ hvanished =>
    exact ⟨0, (shown_signed represents_zero n.negative).trans (by simp [shownMagnitude]),
      htakes.keptAs_of_vanished hvanished⟩
  | scaled hinteger hvanished hy =>
    obtain ⟨a, ha, hkept⟩ := htakes.exists_keptAs_of_scaled hinteger hvanished hy
    exact ⟨_, shown_signed ha n.negative, hkept⟩

/-- What becomes of a number that is read and printed. -/
structure Literal.Kept (old new : Literal) : Prop where
  /-- Integers of 64 bits, signed or not, are exact. -/
  word : old.IsInteger → -2 ^ 63 ≤ old.toRat → old.toRat < 2 ^ 64 → new.toRat = old.toRat
  /-- So are numbers of 15 digits whose last place is neither small nor large. -/
  short : old.digits < 10 ^ 15 → |old.scale| ≤ 22 → new.toRat = old.toRat
  /-- All others are off by a few roundings. -/
  close : old.whole.length + 324 ≤ 2 ^ 31 →
    |new.toRat - old.toRat| ≤ |old.toRat| / 2 ^ 50 + 1 / 2 ^ 1073

/-- A number that is read and printed again is kept. -/
theorem Literal.Keeps.kept {l l' : Literal} {x : Number} (h : l.Keeps x) (h' : x.PrintedAs l') :
    l.Kept l' := by
  obtain ⟨m, hshown, hkept⟩ := h.exists_shown
  have hprinted : l'.toRat = if l.negative then -m else m := h'.toRat_eq.trans hshown
  have heq : m = l.magnitude → l'.toRat = l.toRat := fun hm => by rw [hprinted, hm, Literal.toRat]
  refine ⟨fun hl hmin hmax => heq (hkept.word (hl.isWord hmin hmax)), fun hdigits hscale =>
    heq (hkept.short hdigits hscale), fun hwhole => ?_⟩
  have hclose := hkept.close hwhole
  rw [hprinted, Literal.toRat]
  cases l.negative with
  | false =>
    simpa only [Bool.false_eq_true, if_false, abs_of_nonneg l.magnitude_nonneg] using hclose
  | true =>
    simp only [if_true]
    rw [abs_neg, abs_of_nonneg l.magnitude_nonneg, ← neg_sub_neg, abs_sub_comm]
    simpa using hclose

end FramedRelay.Json
