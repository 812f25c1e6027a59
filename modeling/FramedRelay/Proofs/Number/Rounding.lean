import Mathlib
import FramedRelay.Proofs.Number.Shortest

/-!
# Rounding to the nearest

A binary64 operation computes its exact result as a mantissa, an exponent and what is left over
(`Describes`), shifts that to where the format wants it, and rounds to the nearest mantissa, of two
equally near ones to the even one (`Nearest`). `exists_canonical_of_round` says what comes of it: a
number in the form of the format (`Binary.Canonical`) whose interval contains the exact result.
-/

open Float.Model Float.Model.UnpackedFloat

namespace FramedRelay.Shortest

/-! ## What is left over -/

/-- A mantissa and what is left over describe a number. -/
def Describes (mantissa : ℕ) (accuracy : Accuracy) (r : ℚ) : Prop :=
  match accuracy with
  | .exact => r = mantissa
  | .inexact .lt => mantissa < r ∧ r < mantissa + 1 / 2
  | .inexact .eq => r = mantissa + 1 / 2
  | .inexact .gt => mantissa + 1 / 2 < r ∧ r < mantissa + 1

/-- The mantissa is nearest to a number, and even if it is not the only one. -/
def Nearest (mantissa : ℕ) (r : ℚ) : Prop :=
  if mantissa % 2 = 0 then mantissa - 1 / 2 ≤ r ∧ r ≤ mantissa + 1 / 2
  else mantissa - 1 / 2 < r ∧ r < mantissa + 1 / 2

section

variable {m : ℕ} {accuracy : Accuracy} {em : ExtendedMantissa} {r : ℚ}

theorem Describes.bounds (h : Describes m accuracy r) : m ≤ r ∧ r < m + 1 := by
  rcases accuracy with - | - | - | - <;> simp only [Describes] at h <;> constructor <;> linarith

theorem nearest_of_lt (hlow : m - 1 / 2 < r) (hhigh : r < m + 1 / 2) : Nearest m r := by
  unfold Nearest
  split
  · exact ⟨hlow.le, hhigh.le⟩
  · exact ⟨hlow, hhigh⟩

/-- The mantissa as it is rounded is nearest to the number, and next to the one before. -/
theorem Describes.nearest (h : Describes m accuracy r) :
    Nearest (accuracy.roundToNearestEven m) r ∧ m ≤ accuracy.roundToNearestEven m ∧
      accuracy.roundToNearestEven m ≤ m + 1 := by
  rcases accuracy with - | - | - | - <;>
    simp only [Describes, Accuracy.roundToNearestEven] at h ⊢
  · exact ⟨nearest_of_lt (by linarith) (by linarith), by omega, by omega⟩
  · exact ⟨nearest_of_lt (by linarith) (by linarith), by omega, by omega⟩
  · rcases Nat.mod_two_eq_zero_or_one m with hm | hm
    · rw [hm, Nearest, if_pos (by omega)]
      exact ⟨⟨by simp; linarith, by simp; linarith⟩, by omega, by omega⟩
    · rw [hm, Nearest, if_pos (by omega)]
      push_cast
      exact ⟨⟨by linarith, by linarith⟩, by omega, by omega⟩
  · exact ⟨nearest_of_lt (by push_cast; linarith) (by push_cast; linarith), by omega, by omega⟩

theorem describes_ofMantissaAndAccuracy (h : Describes m accuracy r) :
    (ExtendedMantissa.ofMantissaAndAccuracy m accuracy).mantissa = m ∧
      Describes (ExtendedMantissa.ofMantissaAndAccuracy m accuracy).mantissa
        (ExtendedMantissa.ofMantissaAndAccuracy m accuracy).accuracy r := by
  rcases accuracy with - | - | - | - <;> exact ⟨rfl, h⟩

/-- Shifting halves the number described. -/
theorem Describes.shiftRightOne (h : Describes em.mantissa em.accuracy r) :
    Describes em.shiftRightOne.mantissa em.shiftRightOne.accuracy (r / 2) := by
  obtain ⟨m, roundBit, stickyBit⟩ := em
  have hm : (m : ℚ) = 2 * (m / 2 : ℕ) + (m % 2 : ℕ) := by exact_mod_cast (Nat.div_add_mod m 2).symm
  rcases Nat.mod_two_eq_zero_or_one m with hmod | hmod
  · have hbit : (m % 2 != 0) = false := by simp [hmod]
    rw [hmod] at hm
    push_cast at hm
    cases roundBit <;> cases stickyBit <;>
      simp only [Describes, ExtendedMantissa.accuracy, ExtendedMantissa.shiftRightOne, hbit,
        Bool.or_false, Bool.or_true, Bool.or_self] at h ⊢ <;>
      first | linarith | exact ⟨by linarith, by linarith⟩
  · have hbit : (m % 2 != 0) = true := by simp [hmod]
    rw [hmod] at hm
    push_cast at hm
    cases roundBit <;> cases stickyBit <;>
      simp only [Describes, ExtendedMantissa.accuracy, ExtendedMantissa.shiftRightOne, hbit,
        Bool.or_false, Bool.or_true, Bool.or_self] at h ⊢ <;>
      first | linarith | exact ⟨by linarith, by linarith⟩

theorem Describes.shiftRight (h : Describes em.mantissa em.accuracy r) (n : ℕ) :
    Describes (em >>> n).mantissa (em >>> n).accuracy (r / 2 ^ n) ∧
      (em >>> n).mantissa = em.mantissa / 2 ^ n := by
  induction n with
  | zero => exact ⟨by simpa [HShiftRight.hShiftRight, Nat.repeat] using h, by
      simp [HShiftRight.hShiftRight, Nat.repeat]⟩
  | succ n ih =>
    have hsucc : em >>> (n + 1) = (em >>> n).shiftRightOne := rfl
    rw [hsucc, pow_succ, ← div_div]
    refine ⟨ih.1.shiftRightOne, ?_⟩
    rw [ExtendedMantissa.shiftRightOne, ih.2, Nat.div_div_eq_div_mul, pow_succ]

end

/-! ## Numbers in the form of the format -/

namespace Binary

/-- The form of the format: all numbers but the subnormal ones have the leading bit. -/
structure Canonical (x : Binary) : Prop where
  mantissa_lt : x.mantissa < 2 * leadingBit
  exponent_ge : -1074 ≤ x.exponent
  leading : x.exponent = -1074 ∨ leadingBit ≤ x.mantissa

/-- The number with a sign, as operations take it and give it. -/
def unpacked (sign : Sign) (x : Binary) : UnpackedFloat :=
  if h : x.mantissa = 0 then .zero sign
  else .finite sign x.mantissa x.exponent (Nat.pos_of_ne_zero h)

/-- What the mantissa is nearest to lies in the interval. The gap below a power of two is half of
the gap above it, so what lies below is no matter of the mantissa alone. -/
theorem contains_of_nearest {x : Binary} {r : ℚ} (h : Nearest x.mantissa r) (hr : 0 ≤ r)
    (hboundary : x.isPowerBoundary = true → (4 * x.mantissa - 1 : ℚ) ≤ 4 * r) :
    x.Contains (r * 2 ^ x.exponent) := by
  have hquarter := x.quarter_pos
  have heven : x.isPowerBoundary = true → x.mantissa % 2 = 0 := by
    intro hx
    simp only [isPowerBoundary, Bool.and_eq_true, beq_iff_eq] at hx
    rw [hx.1]
    decide
  have hlow : (x.low : ℚ) = 4 * x.mantissa - 1 ∧ x.isPowerBoundary = true ∨
      (x.low : ℚ) = 4 * x.mantissa - 2 ∨ x.mantissa = 0 ∧ x.low = 0 := by
    rcases Nat.eq_zero_or_pos x.mantissa with hzero | hpos
    · exact Or.inr (Or.inr ⟨hzero, by simp [low, quarters, hzero]⟩)
    · simp only [low, quarters]
      split_ifs with hx
      · left
        rw [Nat.cast_sub (by omega)]
        push_cast
        exact ⟨rfl, hx⟩
      · right; left
        rw [Nat.cast_sub (by omega)]
        push_cast
        rfl
  have hvalue : r * 2 ^ x.exponent = 4 * r * x.quarter := by
    rw [two_zpow_exponent]
    ring
  unfold Contains
  unfold Nearest at h
  rw [hvalue, high_eq]
  push_cast
  split_ifs at h ⊢ with hmod
  · refine ⟨mul_le_mul_of_nonneg_right ?_ hquarter.le, mul_le_mul_of_nonneg_right ?_ hquarter.le⟩
    · rcases hlow with ⟨hlow, hx⟩ | hlow | ⟨-, hlow⟩
      · exact hlow ▸ hboundary hx
      · linarith
      · rw [hlow]
        push_cast
        linarith
    · linarith
  · refine ⟨mul_lt_mul_of_pos_right ?_ hquarter, mul_lt_mul_of_pos_right ?_ hquarter⟩
    · rcases hlow with ⟨-, hx⟩ | hlow | ⟨hzero, -⟩
      · exact absurd (heven hx) hmod
      · linarith
      · simp [hzero] at hmod
    · linarith

end Binary

/-! ## Rounding -/

section

variable {m : ℕ} {e : ℤ} {accuracy : Accuracy} {r : ℚ}

theorem targetExponent_eq (m : ℕ) (e : ℤ) :
    Format.binary64.targetExponent (totalExponent m e) = max ((m.log2 : ℤ) + e - 52) (-1074) := by
  have hbits : (Format.binary64.mantissaBits : ℤ) = 53 := rfl
  have hmin : Format.binary64.minExponent = -1074 := by decide
  rw [Format.targetExponent, totalExponent, hbits, hmin]
  congr 1
  ring

/-- The first shift leaves a mantissa of the right length, with what is left over. -/
theorem exists_shifted (h : Describes m accuracy r)
    (he : e ≤ Format.binary64.targetExponent (totalExponent m e)) :
    ∃ (em : ExtendedMantissa) (t : ℤ) (r' : ℚ),
      shiftToTargetExponent Format.binary64 m e accuracy = (em, t) ∧
      Describes em.mantissa em.accuracy r' ∧ r' * 2 ^ t = r * 2 ^ e ∧
      em.mantissa < 2 * leadingBit ∧ -1074 ≤ t ∧ (t = -1074 ∨ leadingBit ≤ em.mantissa) := by
  rw [targetExponent_eq] at he
  obtain ⟨k, hk⟩ : ∃ k : ℕ, max ((m.log2 : ℤ) + e - 52) (-1074) = e + k :=
    ⟨(max ((m.log2 : ℤ) + e - 52) (-1074) - e).toNat, by omega⟩
  obtain ⟨hmantissa, hdescribes⟩ := describes_ofMantissaAndAccuracy h
  obtain ⟨hshifted, hdiv⟩ := hdescribes.shiftRight k
  refine ⟨_, e + k, r / 2 ^ k, ?_, hshifted, ?_, ?_, by omega, ?_⟩
  · simp [shiftToTargetExponent, shiftToExponent, targetExponent_eq, hk]
  · rw [zpow_add₀ two_ne_zero, zpow_natCast]
    field_simp
  · rw [hdiv, hmantissa, Nat.div_lt_iff_lt_mul (by positivity)]
    have hlog : m.log2 + 1 ≤ 53 + k := by omega
    calc m < 2 ^ (m.log2 + 1) := Nat.lt_log2_self
      _ ≤ 2 ^ (53 + k) := Nat.pow_le_pow_right (by decide) hlog
      _ = 2 * leadingBit * 2 ^ k := by rw [pow_add]; rfl
  · rw [hdiv, hmantissa, Nat.le_div_iff_mul_le (by positivity)]
    rcases eq_or_ne (e + k) (-1074) with ht | ht
    · exact Or.inl ht
    · have hlog : m.log2 = 52 + k := by omega
      have hm : m ≠ 0 := by
        rintro rfl
        simp at hlog
        omega
      refine Or.inr ?_
      calc leadingBit * 2 ^ k = 2 ^ m.log2 := by rw [hlog, pow_add]; rfl
        _ ≤ m := Nat.log2_self_le hm

theorem shift_exact_of_lt {t : ℤ} (hm : m < 2 * leadingBit) (ht : -1074 ≤ t) :
    shiftToTargetExponent Format.binary64 m t .exact = (⟨m, false, false⟩, t) := by
  have hlog : m.log2 ≤ 52 := by
    rcases Nat.eq_zero_or_pos m with rfl | hpos
    · simp
    · exact Nat.lt_succ_iff.1 ((Nat.log2_lt hpos.ne').2 hm)
  have hzero : (max ((m.log2 : ℤ) + t - 52) (-1074) - t).toNat = 0 := by omega
  simp [shiftToTargetExponent, shiftToExponent, targetExponent_eq, hzero, HShiftRight.hShiftRight,
    Nat.repeat, ExtendedMantissa.ofMantissaAndAccuracy]

theorem shift_exact_of_carry {t : ℤ} (ht : -1074 ≤ t) :
    shiftToTargetExponent Format.binary64 (2 * leadingBit) t .exact =
      (⟨leadingBit, false, false⟩, t + 1) := by
  have hlog : (2 * leadingBit).log2 = 53 := by decide +kernel
  have hone : (max (((2 * leadingBit).log2 : ℤ) + t - 52) (-1074) - t).toNat = 1 := by
    rw [hlog]
    omega
  simp only [shiftToTargetExponent, shiftToExponent, targetExponent_eq, hone]
  rfl

/-- A mantissa that is rounded to one of the right length is nearest to what was rounded. -/
theorem contains_of_no_carry {em : ExtendedMantissa} {t : ℤ}
    (h : Describes em.mantissa em.accuracy r)
    (hleading : t = -1074 ∨ leadingBit ≤ em.mantissa) :
    (⟨em.roundedMantissa, t⟩ : Binary).Contains (r * 2 ^ t) := by
  obtain ⟨hnearest, hle, -⟩ := h.nearest
  have hlow := h.bounds.1
  have hr : 0 ≤ r := le_trans (Nat.cast_nonneg _) hlow
  refine Binary.contains_of_nearest hnearest hr fun hboundary => ?_
  -- a power of two that is no carry was not rounded up to
  simp only [Binary.isPowerBoundary, Bool.and_eq_true, beq_iff_eq, bne_iff_ne] at hboundary
  obtain ⟨heq, hne⟩ := hboundary
  have hmantissa : em.mantissa = leadingBit := by
    have := hleading.resolve_left hne
    have : em.mantissa ≤ leadingBit := hle.trans_eq heq
    omega
  rw [hmantissa] at hlow
  rw [heq]
  linarith

/-- A mantissa that is rounded up to the next power of two is one bit shorter. -/
theorem contains_of_carry {em : ExtendedMantissa} {t : ℤ}
    (h : Describes em.mantissa em.accuracy r) (hlt : em.mantissa < 2 * leadingBit)
    (heq : em.roundedMantissa = 2 * leadingBit) :
    (⟨leadingBit, t + 1⟩ : Binary).Contains (r * 2 ^ t) := by
  have hnearest : Nearest em.roundedMantissa r := h.nearest.1
  obtain ⟨hlow, hhigh⟩ := h.bounds
  have hr : 0 ≤ r := le_trans (Nat.cast_nonneg _) hlow
  have hr'le : r ≤ 2 * leadingBit := by
    have : ((em.mantissa + 1 : ℕ) : ℚ) ≤ (2 * leadingBit : ℕ) := by exact_mod_cast hlt
    push_cast at this
    linarith
  have hr'ge : (2 * leadingBit : ℚ) - 1 / 2 ≤ r := by
    rw [heq, Nearest, if_pos (by decide)] at hnearest
    exact_mod_cast hnearest.1
  have hhalf : r * 2 ^ t = r / 2 * 2 ^ (t + 1) := by
    rw [zpow_add_one₀ two_ne_zero]
    ring
  rw [hhalf]
  refine Binary.contains_of_nearest (nearest_of_lt ?_ ?_) (by positivity) fun _ => ?_
  · show (leadingBit : ℚ) - 1 / 2 < r / 2
    linarith
  · show r / 2 < (leadingBit : ℚ) + 1 / 2
    linarith
  · show (4 * leadingBit - 1 : ℚ) ≤ 4 * (r / 2)
    linarith

/-- Rounding gives a number in the form of the format, whose interval contains what was rounded. -/
theorem exists_canonical_of_round (sign : Sign) (h : Describes m accuracy r)
    (he : e ≤ Format.binary64.targetExponent (totalExponent m e)) :
    ∃ x : Binary, x.Canonical ∧ x.Contains (r * 2 ^ e) ∧
      roundWithAccuracy Format.binary64 sign m e accuracy = x.unpacked sign := by
  obtain ⟨em, t, r', hshift, hdescribes, hvalue, hlt, ht, hleading⟩ := exists_shifted h he
  obtain ⟨-, hle, hge⟩ := hdescribes.nearest
  rw [← hvalue]
  rcases Nat.lt_or_ge em.roundedMantissa (2 * leadingBit) with hsmall | hcarry
  · refine ⟨⟨em.roundedMantissa, t⟩, ⟨hsmall, ht, hleading.imp_right fun h => h.trans hle⟩,
      contains_of_no_carry hdescribes hleading, ?_⟩
    simp only [roundWithAccuracy, hshift, shift_exact_of_lt hsmall ht, Binary.unpacked]
  · have heq : em.roundedMantissa = 2 * leadingBit := by
      have : em.roundedMantissa ≤ em.mantissa + 1 := hge
      omega
    refine ⟨⟨leadingBit, t + 1⟩, ⟨(by decide : leadingBit < 2 * leadingBit), ?_, Or.inr le_rfl⟩,
      contains_of_carry hdescribes hlt heq, ?_⟩
    · show -1074 ≤ t + 1
      omega
    · simp only [roundWithAccuracy, hshift, heq, shift_exact_of_carry ht, Binary.unpacked]

end

end FramedRelay.Shortest
