import Mathlib.Tactic
import FramedRelay.Json.Numeral
import FramedRelay.Proofs.Number.Floats

/-!
# Scaling by powers of ten

The digits of a number are scaled by a power of ten, itself rounded, in one multiplication or in one
or two divisions. Each of these steps is a rounding, so what comes of them is a few roundings away
from what is meant (`Close`), and half the least subnormal number or so where the result is that
small. If the digits and the power are small both are exact, and the one rounding left gives the
nearest number (`scaled_scaled?`).

Of a number with an exponent far below zero nothing is left after two divisions
(`exists_lower_of_far`), so the recursion of `lower` needs no induction.
-/

namespace FramedRelay.Shortest

open Float.Model Float.Model.UnpackedFloat
open Json.Numeral (power powerLimit)

/-! ## Powers of ten -/

/-- The powers of ten that binary64 numbers hold exactly. -/
theorem power_exact : ∀ n < 23, field (power n).toBits ≠ 2047 ∧ field (power n).toBits ≠ 0 ∧
    isNegative (power n).toBits = false ∧
    (Binary.ofBits (power n).toBits).mantissa *
        Nat.pow 2 (Binary.ofBits (power n).toBits).exponent.toNat =
      Nat.pow 10 n * Nat.pow 2 (-(Binary.ofBits (power n).toBits).exponent).toNat := by
  decide +kernel

theorem Binary.toRat_eq_of_nat {a : Binary} {n : ℕ} (h : a.mantissa * Nat.pow 2 a.exponent.toNat =
    n * Nat.pow 2 (-a.exponent).toNat) : a.toRat = n := by
  have h' : (a.mantissa : ℚ) * 2 ^ a.exponent.toNat = n * 2 ^ (-a.exponent).toNat := by
    exact_mod_cast h
  rw [toRat, zpow_eq_div two_ne_zero, ← mul_div_assoc, h', mul_div_assoc, div_self (by positivity),
    mul_one]

theorem canonical_ofBits {bits : UInt64} (h : field bits ≠ 0) :
    (Binary.ofBits bits).Canonical ∧ leadingBit ≤ (Binary.ofBits bits).mantissa := by
  have hlt : bits.toNat % leadingBit < leadingBit := Nat.mod_lt _ (by decide)
  unfold field at h
  simp only [Binary.ofBits, if_neg h]
  exact ⟨⟨by simp only; omega, by simp only; omega, Or.inr (by simp only; omega)⟩,
    Nat.le_add_right _ _⟩

theorem rounds_power {n : ℕ} (hn : 22 < n) (hle : n ≤ powerLimit) :
    Rounds (power n) .positive (10 ^ n) := by
  simp only [powerLimit] at hle
  have hpower : power n = .ofModel (.pack (roundWithAccuracy Format.binary64 .positive
      (1 <<< 53 * 10 ^ n) (-53) .exact)) := by
    have hslow : power n = .ofModel (.pack (UnpackedFloat.ofScientific Format.binary64 1 n)) := by
      rw [power, Float.ofScientific, dif_neg (by omega)]
      rfl
    rw [hslow, UnpackedFloat.ofScientific, dif_neg one_ne_zero, if_neg (by simp; omega),
      if_neg (by simp; omega), if_pos (Int.natCast_nonneg n)]
    rfl
  rw [hpower]
  have hvalue : (10 : ℚ) ^ n = ((1 <<< 53 * 10 ^ n : ℕ) : ℚ) * 2 ^ (-53 : ℤ) := by
    rw [Nat.shiftLeft_eq]
    push_cast
    norm_num
    ring
  rw [hvalue]
  refine rounds_of_describes (show Describes _ .exact _ from rfl) (Or.inl ?_) _
  have : leadingBit ≤ 1 <<< 53 * 10 ^ n :=
    le_trans (by decide) (Nat.le_mul_of_pos_right (1 <<< 53) (by positivity))
  have := log2_ge this
  omega

theorem one_le_ten_pow (n : ℕ) : (1 : ℚ) ≤ 10 ^ n := one_le_pow₀ (by norm_num)

theorem small_le_one : (1 / 2 ^ 1021 : ℚ) ≤ 1 :=
  div_le_one_of_le₀ (one_le_pow₀ (by norm_num)) (by positivity)

/-- A power of ten is rounded to the nearest, and exact if it is small. -/
theorem exists_power {n : ℕ} (hn : n ≤ powerLimit) :
    ∃ b, Represents (power n) .positive b ∧ leadingBit ≤ b.mantissa ∧ b.Contains (10 ^ n) ∧
      (n ≤ 22 → b.toRat = 10 ^ n) := by
  rcases Nat.lt_or_ge 22 n with hlarge | hsmall
  · obtain ⟨b, hcanonical, hcontains, hb⟩ := rounds_power hlarge hn
    have hle : (10 : ℚ) ^ n ≤ 10 ^ 308 := pow_le_pow_right₀ (by norm_num) hn
    have hone : (1 / 2 ^ 1021 : ℚ) ≤ 10 ^ n := small_le_one.trans (one_le_ten_pow n)
    exact ⟨b, hb ▸ hcanonical.represents (hcanonical.exponent_le hcontains hle) .positive,
      hcanonical.leadingBit_le hcontains hone, hcontains, fun h => absurd h (by omega)⟩
  · obtain ⟨hfinite, hnormal, hsign, hexact⟩ := power_exact n (by omega)
    obtain ⟨hcanonical, hleading⟩ := canonical_ofBits hnormal
    have hrat : (Binary.ofBits (power n).toBits).toRat = 10 ^ n := by
      rw [Binary.toRat_eq_of_nat hexact]
      exact Nat.cast_pow 10 n
    refine ⟨_, ⟨rfl, by rw [hsign]; rfl, hfinite, hcanonical⟩, hleading, ?_, fun _ => hrat⟩
    rw [← hrat]
    exact Binary.contains_self (lt_of_lt_of_le (by decide) hleading)

/-! ## Relative errors -/

/-- The error of one rounding. -/
def roundoff : ℚ := 1 / 2 ^ 53

/-- A number is not above another by more than so many roundings and a slack. -/
def Below (steps : ℕ) (slack p q : ℚ) : Prop := p * (1 - steps * roundoff) ≤ q + slack

/-- Two numbers are so many roundings and a slack apart. -/
def Close (steps : ℕ) (slack p q : ℚ) : Prop := Below steps slack p q ∧ Below steps slack q p

theorem roundoff_pos : 0 < roundoff := by unfold roundoff; positivity

theorem steps_mul_roundoff_le {n : ℕ} (hn : n ≤ 8) : n * roundoff ≤ 1 / 2 ^ 50 := by
  have : (n : ℚ) ≤ 8 := by exact_mod_cast hn
  calc n * roundoff ≤ 8 * roundoff := mul_le_mul_of_nonneg_right this roundoff_pos.le
    _ = 1 / 2 ^ 50 := by rw [roundoff]; norm_num

section

variable {m n : ℕ} {slack slack' p q r p' q' : ℚ}

theorem one_sub_pos (hn : n ≤ 8) : 0 < 1 - n * roundoff := by
  have := steps_mul_roundoff_le hn
  have : (1 / 2 ^ 50 : ℚ) < 1 := by norm_num
  linarith

/-- So many roundings one after another are less than all of them at once. -/
theorem one_sub_add_le (m n : ℕ) :
    1 - ((m + n : ℕ) : ℚ) * roundoff ≤ (1 - m * roundoff) * (1 - n * roundoff) := by
  have : 0 ≤ (m * roundoff) * (n * roundoff) :=
    mul_nonneg (mul_nonneg (Nat.cast_nonneg m) roundoff_pos.le)
      (mul_nonneg (Nat.cast_nonneg n) roundoff_pos.le)
  push_cast
  linarith

theorem Below.trans (h : Below m slack p q) (h' : Below n slack' q r) (hp : 0 ≤ p)
    (hslack : 0 ≤ slack) (hn : n ≤ 8) : Below (m + n) (slack + slack') p r := by
  unfold Below at h h' ⊢
  have hone := one_sub_pos hn
  have hle : 1 - n * roundoff ≤ 1 := by
    have := mul_nonneg (Nat.cast_nonneg (α := ℚ) n) roundoff_pos.le
    linarith
  calc p * (1 - ((m + n : ℕ) : ℚ) * roundoff)
      ≤ p * ((1 - m * roundoff) * (1 - n * roundoff)) :=
        mul_le_mul_of_nonneg_left (one_sub_add_le m n) hp
    _ = p * (1 - m * roundoff) * (1 - n * roundoff) := by ring
    _ ≤ (q + slack) * (1 - n * roundoff) := mul_le_mul_of_nonneg_right h hone.le
    _ = q * (1 - n * roundoff) + slack * (1 - n * roundoff) := by ring
    _ ≤ r + slack' + slack * 1 := add_le_add h' (mul_le_mul_of_nonneg_left hle hslack)
    _ = r + (slack + slack') := by ring

theorem Below.mul (h : Below m 0 p q) (h' : Below n 0 p' q') (hp : 0 ≤ p) (hp' : 0 ≤ p')
    (hq : 0 ≤ q) (hn : n ≤ 8) : Below (m + n) 0 (p * p') (q * q') := by
  unfold Below at h h' ⊢
  simp only [add_zero] at h h' ⊢
  calc p * p' * (1 - ((m + n : ℕ) : ℚ) * roundoff)
      ≤ p * p' * ((1 - m * roundoff) * (1 - n * roundoff)) :=
        mul_le_mul_of_nonneg_left (one_sub_add_le m n) (mul_nonneg hp hp')
    _ = p * (1 - m * roundoff) * (p' * (1 - n * roundoff)) := by ring
    _ ≤ q * q' := mul_le_mul h h' (mul_nonneg hp' (one_sub_pos hn).le) hq

theorem Below.div (h : Below m slack p q) (h' : Below n 0 q' p') (hp : 0 ≤ p) (hp' : 0 < p')
    (hq' : 1 ≤ q') (hslack : 0 ≤ slack) (hm : m ≤ 8) (hn : n ≤ 8) :
    Below (m + n) slack (p / p') (q / q') := by
  unfold Below at h h' ⊢
  rw [add_zero] at h'
  have hq'pos : 0 < q' := by linarith
  have hnum : 0 ≤ q + slack := (mul_nonneg hp (one_sub_pos hm).le).trans h
  have hden : (1 - n * roundoff) / p' ≤ 1 / q' := by
    rw [div_le_div_iff₀ hp' hq'pos]
    linarith
  calc p / p' * (1 - ((m + n : ℕ) : ℚ) * roundoff)
      ≤ p / p' * ((1 - m * roundoff) * (1 - n * roundoff)) :=
        mul_le_mul_of_nonneg_left (one_sub_add_le m n) (div_nonneg hp hp'.le)
    _ = p * (1 - m * roundoff) * ((1 - n * roundoff) / p') := by ring
    _ ≤ (q + slack) * (1 / q') :=
        mul_le_mul h hden (div_nonneg (one_sub_pos hn).le hp'.le) hnum
    _ = q / q' + slack / q' := by ring
    _ ≤ q / q' + slack := by
        have := div_le_self hslack hq'
        linarith

theorem Close.symm (h : Close n slack p q) : Close n slack q p := ⟨h.2, h.1⟩

theorem Close.trans (h : Close m slack p q) (h' : Close n slack' q r) (hp : 0 ≤ p) (hr : 0 ≤ r)
    (hslack : 0 ≤ slack) (hslack' : 0 ≤ slack') (hm : m ≤ 8) (hn : n ≤ 8) :
    Close (m + n) (slack + slack') p r := by
  refine ⟨h.1.trans h'.1 hp hslack hn, ?_⟩
  rw [add_comm m, add_comm slack]
  exact h'.2.trans h.2 hr hslack' hm

theorem Close.mul (h : Close m 0 p q) (h' : Close n 0 p' q') (hp : 0 ≤ p) (hp' : 0 ≤ p')
    (hq : 0 ≤ q) (hq' : 0 ≤ q') (hn : n ≤ 8) : Close (m + n) 0 (p * p') (q * q') :=
  ⟨h.1.mul h'.1 hp hp' hq hn, h.2.mul h'.2 hq hq' hp hn⟩

theorem Close.div (h : Close m slack p q) (h' : Close n 0 p' q') (hp : 0 ≤ p) (hq : 0 ≤ q)
    (hp' : 1 ≤ p') (hq' : 1 ≤ q') (hslack : 0 ≤ slack) (hm : m ≤ 8) (hn : n ≤ 8) :
    Close (m + n) slack (p / p') (q / q') :=
  ⟨h.1.div h'.2 hp (by linarith) hq' hslack hm hn, h.2.div h'.1 hq (by linarith) hp' hslack hm hn⟩

/-- A rounding or a few do not halve a number. -/
theorem Below.half_le (h : Below n slack p q) (hp : 0 ≤ p) (hn : n ≤ 8) : p / 2 ≤ q + slack := by
  have hsteps := steps_mul_roundoff_le hn
  have hhalf : (1 : ℚ) / 2 ≤ 1 - n * roundoff := by
    have : (1 / 2 ^ 50 : ℚ) ≤ 1 / 2 := by norm_num
    linarith
  calc p / 2 = p * (1 / 2) := by ring
    _ ≤ p * (1 - n * roundoff) := mul_le_mul_of_nonneg_left hhalf hp
    _ ≤ q + slack := h

/-- One rounding. -/
theorem close_of_abs_sub_le (h : |q - p| ≤ p / 2 ^ 53 + slack) (hp : 0 ≤ p) (hslack : 0 ≤ slack) :
    Close 1 slack p q := by
  have hroundoff : p / 2 ^ 53 = p * roundoff := by rw [roundoff]; ring
  rw [hroundoff] at h
  obtain ⟨hl, hh⟩ := abs_le.1 h
  have hpos := roundoff_pos
  have hone : roundoff ≤ 1 := by rw [roundoff]; norm_num
  unfold Close Below
  rw [Nat.cast_one, one_mul]
  refine ⟨by linarith, ?_⟩
  calc q * (1 - roundoff) ≤ (p * (1 + roundoff) + slack) * (1 - roundoff) :=
        mul_le_mul_of_nonneg_right (by linarith) (by linarith)
    _ = p - p * roundoff ^ 2 + slack - slack * roundoff := by ring
    _ ≤ p + slack := by
        have := mul_nonneg hp (sq_nonneg roundoff)
        have := mul_nonneg hslack hpos.le
        linarith

/-- Seven roundings and a slack, in plain terms. -/
theorem Close.abs_sub_le (h : Close 7 (3 * Binary.tiny) p q) (hq : 0 ≤ q) :
    |p - q| ≤ q / 2 ^ 50 + 1 / 2 ^ 1073 := by
  obtain ⟨hl, hr⟩ := h
  unfold Below at hl hr
  push_cast at hl hr
  have hroundoff : q / 2 ^ 50 = 8 * (q * roundoff) := by rw [roundoff]; ring
  have htiny : (1 : ℚ) / 2 ^ 1073 = 4 * Binary.tiny := by
    rw [Binary.tiny, show 1075 = 1073 + 2 from rfl, pow_add]
    field_simp
    norm_num
  have hpos : 0 < Binary.tiny := Binary.tiny_pos
  have hone : roundoff ≤ 1 / 56 := by rw [roundoff]; norm_num
  have hq' : 0 ≤ q * roundoff := mul_nonneg hq roundoff_pos.le
  rw [hroundoff, htiny, abs_le]
  refine ⟨by linarith, ?_⟩
  by_contra hlt
  have hlarge : (q + 8 * (q * roundoff) + 4 * Binary.tiny) * (1 - 7 * roundoff) <
      p * (1 - 7 * roundoff) :=
    mul_lt_mul_of_pos_right (by linarith) (by linarith)
  have hsq : q * roundoff * roundoff ≤ q * roundoff * (1 / 56) :=
    mul_le_mul_of_nonneg_left hone hq'
  have ht : Binary.tiny * roundoff ≤ Binary.tiny * (1 / 56) :=
    mul_le_mul_of_nonneg_left hone hpos.le
  linarith [hlarge.trans_le hl]

end

/-! ## Scaling by powers of ten -/

section

variable {x y : Float} {a b : Binary} {p q : ℚ} {m n : ℕ} {slack : ℚ}

theorem Binary.toRat_nonneg (a : Binary) : 0 ≤ a.toRat := by
  unfold toRat
  positivity

theorem Binary.Canonical.close (h : a.Canonical) (hq : a.Contains q) : Close 1 tiny a.toRat q :=
  close_of_abs_sub_le (h.abs_sub_le hq) a.toRat_nonneg tiny_pos.le

/-- A number that is not subnormal is one rounding away from what was rounded. -/
theorem Binary.close_of_leadingBit_le (ha : leadingBit ≤ a.mantissa) (hq : a.Contains q) :
    Close 1 0 a.toRat q := by
  refine close_of_abs_sub_le (hq.abs_sub_le_half.trans ?_) a.toRat_nonneg le_rfl
  have hm : (2 : ℚ) ^ 52 ≤ a.mantissa := by exact_mod_cast ha
  have := mul_le_mul_of_nonneg_right hm (by positivity : (0 : ℚ) ≤ 2 ^ a.exponent)
  rw [two_zpow_pred, toRat, add_zero, div_le_div_iff₀ (by norm_num) (by norm_num)]
  linarith

/-- What is rounded to a number other than zero is not tiny. -/
theorem Binary.Canonical.mantissa_eq_zero (h : a.Canonical) (hq : a.Contains q)
    (hsmall : q < tiny) : a.mantissa = 0 := by
  by_contra hne
  have hlow : (2 : ℚ) ≤ a.low := by
    have := (low_add_two (Nat.pos_of_ne_zero hne)).1
    exact_mod_cast (by omega : 2 ≤ a.low)
  have hquarter : (2 : ℚ) ^ (-1076 : ℤ) ≤ a.quarter :=
    zpow_le_zpow_right₀ (by norm_num) (by have := h.exponent_ge; omega)
  have htiny : tiny = 2 * 2 ^ (-1076 : ℤ) := by
    rw [tiny, one_div, ← zpow_natCast, ← zpow_neg, ← zpow_one_add₀ two_ne_zero]
    rfl
  have hle : tiny ≤ q := by
    rw [htiny]
    exact (mul_le_mul hlow hquarter (by positivity) (Nat.cast_nonneg _)).trans hq.bounds.1
  exact absurd hsmall (not_lt.2 hle)

theorem Binary.toRat_eq_zero (h : a.mantissa = 0) : a.toRat = 0 := by
  rw [toRat, h, Nat.cast_zero, zero_mul]

theorem natCast_le_ten_pow (hn : n < UInt64.size) : (n : ℚ) ≤ 10 ^ 20 := by
  have : n ≤ 10 ^ 20 := hn.le.trans (by decide)
  exact_mod_cast this

/-- The last place of what is not large is no greater than one. -/
theorem Binary.Contains.exponent_nonpos (hn : a.Contains n) (hleading : leadingBit ≤ a.mantissa)
    (hlt : n < 10 ^ 15) : a.exponent ≤ 0 := by
  by_contra hgt
  have hlow : (2 ^ 53 : ℚ) ≤ a.low := by
    have := (low_add_two (lt_of_lt_of_le (by decide) hleading)).1
    have : leadingBit = 2 ^ 52 := rfl
    exact_mod_cast (by omega : 2 ^ 53 ≤ a.low)
  have hquarter : (2 : ℚ) ^ (-1 : ℤ) ≤ a.quarter :=
    zpow_le_zpow_right₀ (by norm_num) (by omega)
  have hle : (2 ^ 53 : ℚ) * 2 ^ (-1 : ℤ) ≤ n :=
    (mul_le_mul hlow hquarter (by positivity) (Nat.cast_nonneg _)).trans hn.bounds.1
  have hlt' : (n : ℚ) < 10 ^ 15 := by exact_mod_cast hlt
  norm_num at hle hlt'
  linarith

/-- A natural number that is not large is rounded to itself. -/
theorem Binary.Canonical.toRat_eq_natCast (h : a.Canonical) (hn : a.Contains n)
    (hlt : n < 10 ^ 15) : a.toRat = n := by
  rcases Nat.eq_zero_or_pos n with rfl | hpos
  · rw [Nat.cast_zero] at hn ⊢
    exact toRat_eq_zero (h.mantissa_eq_zero hn tiny_pos)
  have hleading := h.leadingBit_le hn (small_le_one.trans (by exact_mod_cast hpos))
  -- on the grid of the float, which has the integers, both are within half a step
  obtain ⟨k, hk⟩ : ∃ k : ℕ, a.exponent = -k :=
    ⟨(-a.exponent).toNat, by have := hn.exponent_nonpos hleading hlt; omega⟩
  have hpow : (0 : ℚ) < 2 ^ k := by positivity
  have hrat : a.toRat = a.mantissa / 2 ^ k := by
    rw [toRat, hk, zpow_neg, zpow_natCast, div_eq_mul_inv]
  have habs := hn.abs_sub_le_half
  rw [two_zpow_pred, hk, zpow_neg, zpow_natCast, hrat] at habs
  have hgrid : |((n * 2 ^ k : ℤ) : ℚ) - (a.mantissa : ℤ)| < 1 := by
    have hscale : ((n * 2 ^ k : ℤ) : ℚ) - (a.mantissa : ℤ) = (n - a.mantissa / 2 ^ k) * 2 ^ k := by
      push_cast
      field_simp
    rw [hscale, abs_mul, abs_of_pos hpow]
    calc |(n : ℚ) - a.mantissa / 2 ^ k| * 2 ^ k ≤ (2 ^ k)⁻¹ / 2 * 2 ^ k :=
          mul_le_mul_of_nonneg_right habs hpow.le
      _ = 1 / 2 := by field_simp
      _ < 1 := by norm_num
  have heq : (n * 2 ^ k : ℤ) = a.mantissa := by
    have hlt' : |(n * 2 ^ k : ℤ) - a.mantissa| < 1 := by exact_mod_cast hgrid
    exact sub_eq_zero.1 (Int.abs_lt_one_iff.1 hlt')
  rw [hrat, div_eq_iff hpow.ne']
  exact_mod_cast heq.symm

/-- An integer of 64 bits is one rounding away from its float, and equal to it if it is not
large. -/
theorem exists_toFloat (hn : n < UInt64.size) :
    ∃ a, Represents (UInt64.ofNat n).toFloat .positive a ∧
      Close 1 0 a.toRat n ∧ (0 < n → leadingBit ≤ a.mantissa) ∧
      (n < 10 ^ 15 → a.toRat = n) ∧ a.toRat ≤ 10 ^ 308 := by
  obtain ⟨a, hcanonical, hcontains, heq⟩ := rounds_toFloat hn
  have hle : (n : ℚ) ≤ 10 ^ 308 :=
    (natCast_le_ten_pow hn).trans (pow_le_pow_right₀ (by norm_num) (by norm_num))
  have hleading : 0 < n → leadingBit ≤ a.mantissa := fun hpos =>
    hcanonical.leadingBit_le hcontains (small_le_one.trans (by exact_mod_cast hpos))
  have hclose : Close 1 0 a.toRat n := by
    rcases Nat.eq_zero_or_pos n with rfl | hpos
    · rw [Nat.cast_zero] at hcontains ⊢
      rw [Binary.toRat_eq_zero (hcanonical.mantissa_eq_zero hcontains Binary.tiny_pos)]
      simp [Close, Below]
    · exact Binary.close_of_leadingBit_le (hleading hpos) hcontains
  refine ⟨a, heq ▸ hcanonical.represents (hcanonical.exponent_le hcontains hle) .positive,
    hclose, hleading, hcanonical.toRat_eq_natCast hcontains, ?_⟩
  have hhalf := hclose.1.half_le a.toRat_nonneg (by norm_num)
  have hn' := natCast_le_ten_pow hn
  calc a.toRat ≤ 2 * n := by linarith
    _ ≤ 2 * 10 ^ 20 := by linarith
    _ ≤ 10 ^ 21 := by norm_num
    _ ≤ 10 ^ 308 := pow_le_pow_right₀ (by norm_num) (by norm_num)

/-- A power of ten is one rounding away from its float, and its float is no less than one. -/
theorem exists_power_close (hn : n ≤ powerLimit) :
    ∃ b, Represents (power n) .positive b ∧ leadingBit ≤ b.mantissa ∧ Close 1 0 b.toRat (10 ^ n) ∧
      1 ≤ b.toRat ∧ (n ≤ 22 → b.toRat = 10 ^ n) := by
  obtain ⟨b, hb, hleading, hcontains, hexact⟩ := exists_power hn
  have hclose := Binary.close_of_leadingBit_le hleading hcontains
  refine ⟨b, hb, hleading, hclose, ?_, hexact⟩
  rcases Nat.lt_or_ge 22 n with hlarge | hsmall
  · have hhalf := hclose.2.half_le (by positivity) (by norm_num)
    have hten : (10 : ℚ) ^ 1 ≤ 10 ^ n := pow_le_pow_right₀ (by norm_num) (by omega)
    linarith
  · rw [hexact hsmall]
    exact one_le_ten_pow n

/-- Multiplying by a power of ten. -/
theorem Represents.exists_mul_power (hx : Represents x .positive a) (hp : 0 ≤ p)
    (hclose : Close m 0 a.toRat p) (hm : m ≤ 7) (hn : n ≤ powerLimit)
    (hfinite : (x * power n).isInf = false) :
    ∃ c, Represents (x * power n) .positive c ∧
      Close (m + 2) Binary.tiny c.toRat (p * 10 ^ n) ∧
      (n ≤ 22 → c.Contains (a.toRat * 10 ^ n)) := by
  obtain ⟨b, hb, hleading, hclose', -, hexact⟩ := exists_power_close hn
  obtain ⟨c, hc, hcontains⟩ := (hx.mul hb hleading).exists_represents hfinite
  refine ⟨c, hc, ?_, fun h => hexact h ▸ hcontains⟩
  have hproduct := hclose.mul hclose' a.toRat_nonneg b.toRat_nonneg hp (by positivity) (by norm_num)
  have := (hc.canonical.close hcontains).trans hproduct c.toRat_nonneg (by positivity)
    Binary.tiny_pos.le le_rfl (by norm_num) (by omega)
  rwa [add_zero, show 1 + (m + 1) = m + 2 by omega] at this

/-- Dividing by a power of ten. -/
theorem Represents.exists_div_power (hx : Represents x .positive a) (hp : 0 ≤ p)
    (hlarge : a.toRat ≤ 10 ^ 308) (hslack : 0 ≤ slack) (hclose : Close m slack a.toRat p)
    (hm : m ≤ 7) (hn : n ≤ powerLimit) :
    ∃ c, Represents (x / power n) .positive c ∧
      Close (m + 2) (Binary.tiny + slack) c.toRat (p / 10 ^ n) ∧
      (n ≤ 22 → c.Contains (a.toRat / 10 ^ n)) ∧
      ∃ b : Binary, Close 1 0 b.toRat (10 ^ n) ∧ 1 ≤ b.toRat ∧ c.Contains (a.toRat / b.toRat) := by
  obtain ⟨b, hb, hleading, hclose', hone, hexact⟩ := exists_power_close hn
  obtain ⟨c, hcanonical, hcontains, heq⟩ := hx.div hb (lt_of_lt_of_le (by decide) hleading)
  have hle : a.toRat / b.toRat ≤ 10 ^ 308 := (div_le_self a.toRat_nonneg hone).trans hlarge
  have hc : Represents (x / power n) .positive c :=
    heq ▸ hcanonical.represents (hcanonical.exponent_le hcontains hle) .positive
  refine ⟨c, hc, ?_, fun h => hexact h ▸ hcontains, b, hclose', hone, hcontains⟩
  have hquotient := hclose.div hclose' a.toRat_nonneg hp hone (one_le_ten_pow n) hslack (by omega)
    (by norm_num)
  have := (hc.canonical.close hcontains).trans hquotient c.toRat_nonneg (by positivity)
    Binary.tiny_pos.le hslack (by norm_num) (by omega)
  rwa [show 1 + (m + 1) = m + 2 by omega] at this

open Json.Numeral (raise? lower scaled?)

/-- What comes of scaling: a number close to the one that is meant, and the nearest one if both
factors are exact. -/
def Scaled (y : Float) (n : ℕ) (p : ℚ) (small : Prop) : Prop :=
  ∃ c, Represents y .positive c ∧ Close 5 (2 * Binary.tiny) c.toRat p ∧
    (small → n < 10 ^ 15 → c.Contains p)

theorem Binary.contains_zero (ha : a.mantissa = 0) : a.Contains 0 := by
  have hquarter := a.quarter_pos
  have hlow : a.low = 0 := by simp [low, quarters, ha]
  unfold Contains
  rw [if_pos (by simp [ha]), hlow, Nat.cast_zero, zero_mul]
  exact ⟨le_rfl, by positivity⟩

theorem Binary.contains_toRat (a : Binary) : a.Contains a.toRat := by
  rcases Nat.eq_zero_or_pos a.mantissa with hzero | hpos
  · rw [toRat_eq_zero hzero]
    exact contains_zero hzero
  · exact contains_self hpos

/-- Zero is close to what is tiny. -/
theorem Scaled.of_zero {small : Prop} (hy : Represents y .positive a) (ha : a.mantissa = 0)
    (hp : 0 ≤ p) (htiny : p ≤ Binary.tiny) (hsmall : small → p = 0) : Scaled y n p small := by
  have hpos := Binary.tiny_pos
  refine ⟨a, hy, ?_, fun h _ => hsmall h ▸ Binary.contains_zero ha⟩
  rw [Binary.toRat_eq_zero ha]
  refine ⟨by unfold Below; linarith, ?_⟩
  have hle : 1 - ((5 : ℕ) : ℚ) * roundoff ≤ 1 := by
    have := roundoff_pos
    push_cast
    linarith
  have := mul_le_mul_of_nonneg_left hle hp
  unfold Below
  linarith

theorem Below.mono (h : Below m slack p q) (hp : 0 ≤ p) (hmn : m ≤ n) {slack' : ℚ}
    (hslack : slack ≤ slack') : Below n slack' p q := by
  unfold Below at h ⊢
  have hle : (1 : ℚ) - n * roundoff ≤ 1 - m * roundoff := by
    have : (m : ℚ) ≤ n := Nat.cast_le.2 hmn
    have := mul_le_mul_of_nonneg_right this roundoff_pos.le
    linarith
  have := mul_le_mul_of_nonneg_left hle hp
  linarith

theorem Close.mono (h : Close m slack p q) (hp : 0 ≤ p) (hq : 0 ≤ q) (hmn : m ≤ n) {slack' : ℚ}
    (hslack : slack ≤ slack') : Close n slack' p q :=
  ⟨h.1.mono hp hmn hslack, h.2.mono hq hmn hslack⟩

/-- An integer of 64 bits that is not scaled. -/
theorem scaled_toFloat (hn : n < UInt64.size) (small : Prop) :
    Scaled (UInt64.ofNat n).toFloat n n small := by
  have htiny := Binary.tiny_pos
  obtain ⟨a, ha, hclose, -, hexact, -⟩ := exists_toFloat hn
  exact ⟨a, ha, hclose.mono a.toRat_nonneg (Nat.cast_nonneg n) (by norm_num) (by linarith),
    fun _ hlt => hexact hlt ▸ a.contains_toRat⟩

theorem scaled_raise? (hn : n < UInt64.size) {k : ℕ}
    (h : raise? (UInt64.ofNat n).toFloat k = some y) : Scaled y n (n * 10 ^ k) (k ≤ 22) := by
  have htiny := Binary.tiny_pos
  obtain ⟨a, ha, hclose, hleading, hexact, -⟩ := exists_toFloat hn
  simp only [raise?] at h
  split_ifs at h with hk hinf hzero
  · obtain rfl := Option.some.inj h
    obtain ⟨c, hc, hclose', hcontains⟩ :=
      ha.exists_mul_power (Nat.cast_nonneg n) hclose (by norm_num) hk (by simpa using hinf)
    exact ⟨c, hc, hclose'.mono c.toRat_nonneg (by positivity) (by norm_num) (by linarith),
      fun hsmall hlt => hexact hlt ▸ hcontains hsmall⟩
  · obtain rfl := Option.some.inj h
    rw [ha.beq_zero, decide_eq_true_eq] at hzero
    obtain rfl : n = 0 := by
      by_contra hne
      have := hleading (Nat.pos_of_ne_zero hne)
      rw [hzero] at this
      exact absurd this (by decide)
    rw [Nat.cast_zero, zero_mul]
    exact .of_zero ha hzero le_rfl htiny.le fun _ => rfl

/-- Dividing zero leaves zero. -/
theorem exists_lower_of_zero (hx : Represents x .positive a) (ha : a.mantissa = 0) (k : ℕ) :
    ∃ c, Represents (lower x k) .positive c ∧ c.mantissa = 0 := by
  rw [lower]
  split_ifs with hk hzero
  · obtain ⟨b, hb, hleading, -⟩ := exists_power_close hk
    obtain ⟨c, hcanonical, hcontains, heq⟩ := hx.div hb (lt_of_lt_of_le (by decide) hleading)
    rw [Binary.toRat_eq_zero ha, zero_div] at hcontains
    have hc := hcanonical.mantissa_eq_zero hcontains Binary.tiny_pos
    have hle : c.exponent ≤ exponentLimit :=
      hcanonical.exponent_le hcontains (by positivity)
    exact ⟨c, heq ▸ hcanonical.represents hle .positive, hc⟩
  · exact ⟨a, hx, ha⟩
  · rw [hx.beq_zero, ha] at hzero
    simp at hzero

theorem tiny_le : Binary.tiny ≤ 1 / 10 ^ 288 := by
  rw [Binary.tiny]
  refine one_div_le_one_div_of_le (by positivity) ?_
  calc (10 : ℚ) ^ 288 = (10 ^ 3) ^ 96 := by rw [← pow_mul]
    _ ≤ (2 ^ 10) ^ 96 := pow_le_pow_left₀ (by norm_num) (by norm_num) 96
    _ = 2 ^ 960 := by rw [← pow_mul]
    _ ≤ 2 ^ 1075 := pow_le_pow_right₀ (by norm_num) (by norm_num)

theorem lt_tiny : (1 : ℚ) / 10 ^ 432 < Binary.tiny := by
  rw [Binary.tiny]
  refine one_div_lt_one_div_of_lt (by positivity) ?_
  calc (2 : ℚ) ^ 1075 < 2 ^ 1080 := pow_lt_pow_right₀ (by norm_num) (by norm_num)
    _ = (2 ^ 10) ^ 108 := by rw [← pow_mul]
    _ ≤ (10 ^ 4) ^ 108 := pow_le_pow_left₀ (by norm_num) (by norm_num) 108
    _ = 10 ^ 432 := by rw [← pow_mul]

theorem four_div_le : (4 : ℚ) / 10 ^ 288 ≤ 10 ^ 308 := by
  refine le_trans ?_ (one_le_ten_pow 308)
  rw [div_le_one₀ (by positivity)]
  exact le_trans (by norm_num) (pow_le_pow_right₀ (by norm_num) (by norm_num) :
    (10 : ℚ) ^ 1 ≤ 10 ^ 288)

theorem natCast_div_le (hn : n < UInt64.size) (k : ℕ) : (n : ℚ) / 10 ^ (20 + k) ≤ 1 / 10 ^ k := by
  rw [pow_add, ← div_div]
  exact div_le_div_of_nonneg_right
    ((div_le_one₀ (by positivity)).2 (natCast_le_ten_pow hn)) (by positivity)

/-- Two divisions by the greatest power leave zero of any integer of 64 bits. -/
theorem exists_lower_of_far (hx : Represents x .positive a) (hlarge : a.toRat ≤ 4 / 10 ^ 288)
    {k : ℕ} (hk : powerLimit < k) :
    ∃ c, Represents (lower x k) .positive c ∧ c.mantissa = 0 := by
  rw [lower, if_neg (not_le.2 hk)]
  split_ifs with hzero
  · rw [hx.beq_zero, decide_eq_true_eq] at hzero
    exact ⟨a, hx, hzero⟩
  · obtain ⟨c, hc, -, -, b, hclose, hone, hcontains⟩ := hx.exists_div_power a.toRat_nonneg
      (hlarge.trans four_div_le) le_rfl ⟨by simp [Below], by simp [Below]⟩ (Nat.zero_le 7) le_rfl
    have hb : (10 : ℚ) ^ 308 / 2 ≤ b.toRat :=
      (hclose.2.half_le (by positivity) (by norm_num)).trans_eq (add_zero _)
    have hq : a.toRat / b.toRat < Binary.tiny := by
      refine lt_of_le_of_lt ?_ lt_tiny
      calc a.toRat / b.toRat ≤ 4 / 10 ^ 288 / (10 ^ 308 / 2) :=
            div_le_div₀ (by positivity) hlarge (by positivity) hb
        _ = 8 / 10 ^ 596 := by
            rw [show (10 : ℚ) ^ 596 = 10 ^ 288 * 10 ^ 308 by rw [← pow_add]]
            field_simp
            norm_num
        _ ≤ 1 / 10 ^ 432 := by
            rw [div_le_div_iff₀ (by positivity) (by positivity), one_mul]
            calc (8 : ℚ) * 10 ^ 432 ≤ 10 ^ 1 * 10 ^ 432 :=
                  mul_le_mul_of_nonneg_right (by norm_num) (by positivity)
              _ = 10 ^ 433 := by rw [← pow_add]
              _ ≤ 10 ^ 596 := pow_le_pow_right₀ (by norm_num) (by norm_num)
    exact exists_lower_of_zero hc (hc.canonical.mantissa_eq_zero hcontains hq) _

theorem scaled_lower_zero (k : ℕ) : Scaled (lower (UInt64.ofNat 0).toFloat k) 0 0 (k ≤ 22) := by
  obtain ⟨a, ha, -, -, hexact, -⟩ := exists_toFloat (n := 0) (by decide)
  have hzero : a.mantissa = 0 :=
    ha.canonical.mantissa_eq_zero (hexact (by norm_num) ▸ a.contains_toRat)
      (Nat.cast_zero (R := ℚ) ▸ Binary.tiny_pos)
  obtain ⟨c, hc, hzero⟩ := exists_lower_of_zero ha hzero k
  exact .of_zero hc hzero le_rfl Binary.tiny_pos.le fun _ => rfl

/-- The first division by the greatest power. -/
theorem exists_lower_of_limit_lt (hn : n < UInt64.size) (hpos : 0 < n) {k : ℕ}
    (hk : powerLimit < k) :
    ∃ (y : Float) (c : Binary), lower (UInt64.ofNat n).toFloat k = lower y (k - powerLimit) ∧
      Represents y .positive c ∧ Close 3 Binary.tiny c.toRat (n / 10 ^ powerLimit) ∧
      c.toRat ≤ 4 / 10 ^ 288 := by
  obtain ⟨a, ha, hclose, hleading, -, hlarge⟩ := exists_toFloat hn
  obtain ⟨c, hc, hclose', -⟩ :=
    ha.exists_div_power (Nat.cast_nonneg n) hlarge le_rfl hclose (by norm_num) le_rfl
  have hmantissa : a.mantissa ≠ 0 :=
    Nat.pos_iff_ne_zero.1 (lt_of_lt_of_le (by decide) (hleading hpos))
  have hfirst : lower (UInt64.ofNat n).toFloat k =
      lower ((UInt64.ofNat n).toFloat / power powerLimit) (k - powerLimit) := by
    rw [lower, if_neg (not_le.2 hk), ha.beq_zero, decide_eq_false hmantissa]
    rfl
  rw [add_zero] at hclose'
  refine ⟨_, c, hfirst, hc, hclose', ?_⟩
  have hhalf := hclose'.1.half_le c.toRat_nonneg (by norm_num)
  have hle : (n : ℚ) / 10 ^ powerLimit ≤ 1 / 10 ^ 288 := natCast_div_le hn 288
  have htiny := tiny_le
  rw [← mul_one_div]
  generalize (1 : ℚ) / 10 ^ 288 = far at hle htiny ⊢
  linarith

/-- Dividing more than once. -/
theorem scaled_lower_of_limit_lt (hn : n < UInt64.size) (hpos : 0 < n) {k : ℕ}
    (hk : powerLimit < k) :
    Scaled (lower (UInt64.ofNat n).toFloat k) n (n / 10 ^ k) (k ≤ 22) := by
  have htiny := Binary.tiny_pos
  have hvalue : (0 : ℚ) ≤ n / 10 ^ k := by positivity
  have hlarge : ¬k ≤ 22 := by
    simp only [powerLimit] at hk
    omega
  obtain ⟨y, c, hfirst, hc, hclose, hsmall⟩ := exists_lower_of_limit_lt hn hpos hk
  rw [hfirst]
  rcases Nat.lt_or_ge powerLimit (k - powerLimit) with hfar | hnear
  · obtain ⟨c', hc', hzero⟩ := exists_lower_of_far hc hsmall hfar
    refine .of_zero hc' hzero hvalue ?_ fun h => absurd h hlarge
    simp only [powerLimit] at hfar
    refine le_trans ?_ lt_tiny.le
    calc (n : ℚ) / 10 ^ k = n / 10 ^ (20 + (k - 20)) := by congr 2; omega
      _ ≤ 1 / 10 ^ (k - 20) := natCast_div_le hn _
      _ ≤ 1 / 10 ^ 432 := one_div_le_one_div_of_le (by positivity)
          (pow_le_pow_right₀ (by norm_num) (by omega))
  · have hsplit : (n : ℚ) / 10 ^ k = n / 10 ^ powerLimit / 10 ^ (k - powerLimit) := by
      rw [div_div, ← pow_add, Nat.add_sub_cancel' hk.le]
    obtain ⟨c', hc', hclose', -⟩ := hc.exists_div_power (by positivity) (hsmall.trans four_div_le)
      htiny.le hclose (by norm_num) hnear
    rw [lower, if_pos hnear, hsplit]
    exact ⟨c', hc', hclose'.mono c'.toRat_nonneg (by positivity) (by norm_num) (by linarith),
      fun h => absurd h hlarge⟩

theorem scaled_lower (hn : n < UInt64.size) (k : ℕ) :
    Scaled (lower (UInt64.ofNat n).toFloat k) n (n / 10 ^ k) (k ≤ 22) := by
  have htiny := Binary.tiny_pos
  rcases Nat.eq_zero_or_pos n with rfl | hpos
  · rw [Nat.cast_zero, zero_div]
    exact scaled_lower_zero k
  rcases Nat.lt_or_ge powerLimit k with hfar | hnear
  · exact scaled_lower_of_limit_lt hn hpos hfar
  · obtain ⟨a, ha, hclose, -, hexact, hlarge⟩ := exists_toFloat hn
    obtain ⟨c, hc, hclose', hcontains, -⟩ :=
      ha.exists_div_power (Nat.cast_nonneg n) hlarge le_rfl hclose (by norm_num) hnear
    rw [lower, if_pos hnear]
    exact ⟨c, hc, hclose'.mono c.toRat_nonneg (by positivity) (by norm_num) (by linarith),
      fun hsmall hlt => hexact hlt ▸ hcontains hsmall⟩

/-- What is kept of digits and an exponent. -/
theorem scaled_scaled? (hn : n < UInt64.size) {e : ℤ} (h : scaled? n e = some y) :
    Scaled y n (n * 10 ^ e) (|e| ≤ 22) := by
  unfold scaled? at h
  split_ifs at h with he
  · obtain ⟨k, rfl⟩ := Int.eq_ofNat_of_zero_le he
    obtain ⟨c, hc, hclose, hcontains⟩ := scaled_raise? hn h
    rw [zpow_natCast]
    exact ⟨c, hc, hclose, fun hsmall => hcontains (by simpa using hsmall)⟩
  · obtain ⟨k, hk⟩ : ∃ k : ℕ, e = -k := ⟨e.natAbs, by omega⟩
    obtain rfl := Option.some.inj h
    obtain ⟨c, hc, hclose, hcontains⟩ := scaled_lower hn e.natAbs
    have habs : e.natAbs = k := by omega
    have hvalue : (n : ℚ) * 10 ^ e = n / 10 ^ e.natAbs := by
      rw [hk, zpow_neg, zpow_natCast, div_eq_mul_inv, Int.natAbs_neg, Int.natAbs_natCast]
    rw [hvalue]
    exact ⟨c, hc, hclose, fun hsmall => hcontains (by rw [Int.abs_eq_natAbs] at hsmall; omega)⟩

end

end FramedRelay.Shortest
