import Mathlib.Algebra.Order.Field.Power
import Mathlib.Algebra.Order.Field.Rat
import Mathlib.Tactic
import FramedRelay.Text.Shortest

/-!
# Shortest decimals

The decimals that round to a positive binary64 number are those that its interval contains
(`Binary.Contains`). `Shortest.decimal` is one of them, so it is at most half a unit in the last
place from the number (`abs_sub_decimal_le`). If the interval contains a decimal of few digits, that
is the one which is found (`decimal_of_contains`): two of them would be further apart than the
interval is wide, and the search does not pass by the grid on which one lies.
-/

namespace FramedRelay.Shortest

/-- The number that a decimal denotes. -/
def Decimal.toRat (d : Decimal) : ℚ := d.digits * 10 ^ d.exponent

namespace Binary

/-- The number that mantissa and exponent denote. -/
def toRat (x : Binary) : ℚ := x.mantissa * 2 ^ x.exponent

/-- The lower end of the interval, in quarters of the last place. -/
def low (x : Binary) : ℕ := x.quarters.1

/-- The upper end of the interval, in quarters of the last place. -/
def high (x : Binary) : ℕ := x.quarters.2.2

/-- A quarter of the last place. -/
def quarter (x : Binary) : ℚ := 2 ^ (x.exponent - 2)

/-- The number lies in the interval of those that round to `x`. -/
def Contains (x : Binary) (q : ℚ) : Prop :=
  if x.mantissa % 2 = 0 then x.low * x.quarter ≤ q ∧ q ≤ x.high * x.quarter
  else x.low * x.quarter < q ∧ q < x.high * x.quarter

variable {x : Binary} {q : ℚ} {k : ℤ} {c : ℕ}

theorem quarter_pos (x : Binary) : 0 < x.quarter := by unfold quarter; positivity

theorem two_zpow_exponent (x : Binary) : (2 : ℚ) ^ x.exponent = 4 * x.quarter := by
  rw [quarter, zpow_sub₀ two_ne_zero]
  ring

theorem toRat_eq (x : Binary) : x.toRat = (4 * x.mantissa : ℕ) * x.quarter := by
  rw [toRat, two_zpow_exponent]
  push_cast
  ring

theorem high_eq (x : Binary) : x.high = 4 * x.mantissa + 2 := rfl

theorem low_add_two (hx : 0 < x.mantissa) :
    4 * x.mantissa ≤ x.low + 2 ∧ x.low < 4 * x.mantissa := by
  simp only [low, quarters]
  split <;> omega

theorem Contains.bounds (h : x.Contains q) : x.low * x.quarter ≤ q ∧ q ≤ x.high * x.quarter := by
  unfold Contains at h
  split at h
  · exact h
  · exact ⟨h.1.le, h.2.le⟩

/-- The interval has no gaps. -/
theorem Contains.between {p r : ℚ} (hp : x.Contains p) (hq : x.Contains q) (hpr : p ≤ r)
    (hrq : r ≤ q) : x.Contains r := by
  unfold Contains at hp hq ⊢
  split_ifs at hp hq ⊢
  · exact ⟨hp.1.trans hpr, hrq.trans hq.2⟩
  · exact ⟨hp.1.trans_le hpr, hrq.trans_lt hq.2⟩

/-- The number itself lies in its interval. -/
theorem contains_self (hx : 0 < x.mantissa) : x.Contains x.toRat := by
  have hlow : (x.low : ℚ) < (4 * x.mantissa : ℕ) := Nat.cast_lt.2 (low_add_two hx).2
  have hhigh : ((4 * x.mantissa : ℕ) : ℚ) < x.high := Nat.cast_lt.2 (by rw [high_eq]; omega)
  have hl := mul_lt_mul_of_pos_right hlow x.quarter_pos
  have hh := mul_lt_mul_of_pos_right hhigh x.quarter_pos
  unfold Contains
  rw [toRat_eq]
  split
  · exact ⟨hl.le, hh.le⟩
  · exact ⟨hl, hh⟩

/-- What the interval contains is at most half a unit in the last place from the number. -/
theorem Contains.abs_sub_le (hx : 0 < x.mantissa) (h : x.Contains q) :
    |q - x.toRat| ≤ 2 * x.quarter := by
  obtain ⟨hl, hh⟩ := h.bounds
  have hlow : ((4 * x.mantissa : ℕ) : ℚ) ≤ x.low + 2 := by exact_mod_cast (low_add_two hx).1
  have := mul_le_mul_of_nonneg_right hlow x.quarter_pos.le
  rw [high_eq] at hh
  push_cast at hh this
  rw [abs_le, toRat_eq]
  push_cast
  constructor <;> linarith

theorem Contains.pos (hx : 0 < x.mantissa) (h : x.Contains q) : 0 < q := by
  have := (low_add_two hx).1
  exact lt_of_lt_of_le (mul_pos (Nat.cast_pos.2 (by omega)) x.quarter_pos) h.bounds.1

/-! ## One grid -/

/-- A power with an integer exponent is a quotient of two with natural ones. -/
theorem zpow_eq_div {a : ℚ} (ha : a ≠ 0) (n : ℤ) : a ^ n = a ^ n.toNat / a ^ (-n).toNat := by
  rw [eq_div_iff (pow_ne_zero _ ha), ← zpow_natCast, ← zpow_natCast, ← zpow_add₀ ha]
  congr 1
  omega

/-- The units in which a grid is compared with the ends of the interval. -/
def scale (x : Binary) (k : ℤ) : ℕ :=
  Nat.pow 2 (x.exponent - 2).toNat * Nat.pow 10 (-k).toNat

def unit (x : Binary) (k : ℤ) : ℕ :=
  Nat.pow 10 k.toNat * Nat.pow 2 (-(x.exponent - 2)).toNat

theorem unit_pos (x : Binary) (k : ℤ) : 0 < x.unit k :=
  Nat.mul_pos (Nat.pow_pos (by decide)) (Nat.pow_pos (by decide))

theorem exists_factor (x : Binary) (k : ℤ) :
    ∃ f : ℚ, 0 < f ∧ (x.scale k : ℚ) = f * x.quarter ∧ (x.unit k : ℚ) = f * 10 ^ k := by
  refine ⟨10 ^ (-k).toNat * 2 ^ (-(x.exponent - 2)).toNat, by positivity, ?_, ?_⟩
  · rw [quarter, zpow_eq_div two_ne_zero, scale]
    simp only [Nat.pow_eq]
    push_cast
    field_simp
  · rw [zpow_eq_div (a := 10) (by norm_num), unit]
    simp only [Nat.pow_eq]
    push_cast
    field_simp

theorem le_iff (n : ℕ) : n * x.scale k ≤ c * x.unit k ↔ n * x.quarter ≤ (c : ℚ) * 10 ^ k := by
  obtain ⟨f, hf, hscale, hunit⟩ := x.exists_factor k
  rw [← Nat.cast_le (α := ℚ)]
  push_cast
  rw [hscale, hunit, mul_left_comm, mul_left_comm (c : ℚ), mul_le_mul_iff_right₀ hf]

theorem ge_iff (n : ℕ) : c * x.unit k ≤ n * x.scale k ↔ (c : ℚ) * 10 ^ k ≤ n * x.quarter := by
  obtain ⟨f, hf, hscale, hunit⟩ := x.exists_factor k
  rw [← Nat.cast_le (α := ℚ)]
  push_cast
  rw [hscale, hunit, mul_left_comm, mul_left_comm (n : ℚ), mul_le_mul_iff_right₀ hf]

/-- A candidate is admitted if it lies in the interval. -/
theorem admits_iff : x.admits (x.low * x.scale k) (x.high * x.scale k) (x.unit k) c = true ↔
    x.Contains (c * 10 ^ k) := by
  simp only [admits, Contains]
  split
  · simp only [Bool.and_eq_true, decide_eq_true_eq, le_iff, ge_iff]
  · simp only [Bool.and_eq_true, decide_eq_true_eq, ← not_le, ge_iff, le_iff]

/-- A grid point that is found lies in the interval. -/
theorem contains_of_onGrid? (h : x.onGrid? k = some c) : x.Contains (c * 10 ^ k) := by
  have hadmits : x.admits (x.low * x.scale k) (x.high * x.scale k) (x.unit k) c = true := by
    simp only [onGrid?] at h
    split at h
    · next hbelow _ => cases h; exact hbelow
    · next _ habove => cases h; exact habove
    · cases h
    · next hbelow habove =>
      split_ifs at h <;> cases h <;> first | exact hbelow | exact habove
  exact admits_iff.1 hadmits

/-- If the interval contains a point of the grid, then one is found. -/
theorem exists_onGrid? (hx : 0 < x.mantissa) (h : x.Contains (c * 10 ^ k)) :
    ∃ c', x.onGrid? k = some c' := by
  have hnear : x.admits (x.low * x.scale k) (x.high * x.scale k) (x.unit k)
        (4 * x.mantissa * x.scale k / x.unit k) = true ∨
      x.admits (x.low * x.scale k) (x.high * x.scale k) (x.unit k)
        (4 * x.mantissa * x.scale k / x.unit k + 1) = true := by
    have hbelow : ((4 * x.mantissa * x.scale k / x.unit k : ℕ) : ℚ) * 10 ^ k ≤ x.toRat := by
      rw [toRat_eq, ← ge_iff]
      exact Nat.div_mul_le_self _ _
    have habove : x.toRat ≤ ((4 * x.mantissa * x.scale k / x.unit k + 1 : ℕ) : ℚ) * 10 ^ k := by
      rw [toRat_eq, ← le_iff]
      exact (Nat.lt_div_mul_add (x.unit_pos k)).le.trans_eq (by ring)
    rw [admits_iff, admits_iff]
    rcases Nat.lt_or_ge (4 * x.mantissa * x.scale k / x.unit k) c with hlt | hge
    · have hle : ((4 * x.mantissa * x.scale k / x.unit k + 1 : ℕ) : ℚ) ≤ c := Nat.cast_le.2 hlt
      exact Or.inr ((contains_self hx).between h habove
        (mul_le_mul_of_nonneg_right hle (by positivity)))
    · have hle : (c : ℚ) ≤ (4 * x.mantissa * x.scale k / x.unit k : ℕ) := Nat.cast_le.2 hge
      exact Or.inl (h.between (contains_self hx)
        (mul_le_mul_of_nonneg_right hle (by positivity)) hbelow)
  simp only [onGrid?]
  split
  · exact ⟨_, rfl⟩
  · exact ⟨_, rfl⟩
  · next hbelow habove =>
    rcases hnear with hnear | hnear
    · exact absurd (hnear.symm.trans hbelow) (by decide)
    · exact absurd (hnear.symm.trans habove) (by decide)
  · split_ifs <;> exact ⟨_, rfl⟩

/-! ## The search -/

/-- The search ends on the first grid that has a point in the interval. -/
theorem search_eq_some {steps : ℕ} {d : Decimal} (hx : 0 < x.mantissa)
    (h : x.search steps k = some d) :
    x.Contains d.toRat ∧ ∀ j, d.exponent < j → j ≤ k → ∀ c : ℕ, ¬ x.Contains (c * 10 ^ j) := by
  induction steps generalizing k with
  | zero => cases h
  | succ steps ih =>
    simp only [search] at h
    split at h
    · next c hc =>
      cases h
      exact ⟨contains_of_onGrid? hc, fun j hj hjk => absurd hj (not_lt.2 hjk)⟩
    · next hnone =>
      obtain ⟨hd, hno⟩ := ih h
      refine ⟨hd, fun j hj hjk c hc => ?_⟩
      rcases hjk.lt_or_eq with hlt | rfl
      · exact hno j hj (by omega) c hc
      · obtain ⟨c', hc'⟩ := exists_onGrid? hx hc
        simp [hnone] at hc'

/-- If the search ends without a result, no grid has a point in the interval. -/
theorem search_eq_none {steps : ℕ} (hx : 0 < x.mantissa) (h : x.search steps k = none) :
    ∀ j, k < j + steps → j ≤ k → ∀ c : ℕ, ¬ x.Contains (c * 10 ^ j) := by
  induction steps generalizing k with
  | zero => intro j hj hjk; simp at hj; omega
  | succ steps ih =>
    intro j hj hjk c hc
    simp only [search] at h
    split at h
    · cases h
    · next hnone =>
      rcases hjk.lt_or_eq with hlt | rfl
      · exact ih h j (by push_cast at hj; omega) (by omega) c hc
      · obtain ⟨c', hc'⟩ := exists_onGrid? hx hc
        simp [hnone] at hc'

end Binary

/-- The number written out on a grid is the number. -/
theorem toRat_exact (x : Binary) : (exact x).toRat = x.toRat := by
  simp only [exact, Decimal.toRat, Binary.toRat, Binary.finest, Nat.pow_eq]
  push_cast
  rcases le_total 0 x.exponent with h | h
  · obtain ⟨n, hn⟩ := Int.eq_ofNat_of_zero_le h
    simp [hn]
  · obtain ⟨n, hn⟩ := Int.eq_ofNat_of_zero_le (neg_nonneg.2 h)
    have hexponent : x.exponent = -n := by omega
    have hten : (10 : ℚ) ^ n = 2 ^ n * 5 ^ n := by rw [← mul_pow]; norm_num
    rw [min_eq_left h, hn, hexponent, zpow_neg, zpow_natCast, hten, zpow_neg, zpow_natCast]
    simp
    field_simp

/-- The decimal found lies in the interval, and no coarser grid has a point there. -/
theorem contains_decimal {x : Binary} (hx : 0 < x.mantissa) :
    x.Contains (decimal x).toRat ∧
      ∀ j, (decimal x).exponent < j → j ≤ x.coarsest → ∀ c : ℕ, ¬ x.Contains (c * 10 ^ j) := by
  unfold decimal
  cases h : x.search (x.coarsest - x.finest + 1).toNat x.coarsest with
  | some d => exact Binary.search_eq_some hx h
  | none =>
    refine ⟨(toRat_exact x).symm ▸ Binary.contains_self hx, fun j hj hjk => ?_⟩
    refine Binary.search_eq_none hx h j ?_ hjk
    have : x.finest < j := hj
    omega

theorem digits_decimal_pos {x : Binary} (hx : 0 < x.mantissa) : 0 < (decimal x).digits := by
  rcases Nat.eq_zero_or_pos (decimal x).digits with h | h
  · have := (contains_decimal hx).1.pos hx
    simp [Decimal.toRat, h] at this
  · exact h

/-- The decimal found is at most half a unit in the last place from the number. -/
theorem abs_sub_decimal_le {x : Binary} (hx : 0 < x.mantissa) :
    |(decimal x).toRat - x.toRat| ≤ 2 ^ (x.exponent - 1) := by
  refine ((contains_decimal hx).1.abs_sub_le hx).trans_eq ?_
  rw [Binary.quarter, ← zpow_one_add₀ two_ne_zero]
  congr 1
  ring

/-! ## Decimals of few digits -/

theorem two_pow_le_ten_pow : ∀ n < 1101, 2 ^ n ≤ 10 ^ (n * 30103 / 100000 + 2) := by
  decide +kernel

theorem ten_pow_le_two_pow : ∀ n < 1101, 10 ^ ((n * 30103 + 99999) / 100000) ≤ 100 * 2 ^ n := by
  decide +kernel

/-- The coarsest grid of the search has no point but zero in the interval. -/
theorem two_zpow_le {n : ℤ} (hmin : -1100 ≤ n) (hmax : n ≤ 1100) :
    (2 : ℚ) ^ n ≤ 10 ^ (n * 30103 / 100000 + 2) := by
  rcases le_total 0 n with h | h
  · obtain ⟨m, rfl⟩ := Int.eq_ofNat_of_zero_le h
    have := two_pow_le_ten_pow m (by omega)
    rw [show ((m : ℤ) * 30103 / 100000 + 2) = (m * 30103 / 100000 + 2 : ℕ) by push_cast; rfl,
      zpow_natCast, zpow_natCast]
    exact_mod_cast this
  · obtain ⟨m, hm⟩ := Int.eq_ofNat_of_zero_le (neg_nonneg.2 h)
    have := ten_pow_le_two_pow m (by omega)
    have hexponent : n * 30103 / 100000 + 2 = 2 - ((m * 30103 + 99999) / 100000 : ℕ) := by
      push_cast
      omega
    have hn : n = -m := by omega
    rw [hexponent, hn, zpow_neg, zpow_natCast, zpow_sub₀ (by norm_num), zpow_natCast,
      inv_le_iff_one_le_mul₀ (by positivity), div_mul_eq_mul_div, one_le_div (by positivity)]
    exact_mod_cast this

section

variable {x : Binary} {c : ℕ} {j : ℤ}

theorem Binary.Contains.abs_sub_le_width {p q : ℚ} (hx : 0 < x.mantissa) (hp : x.Contains p)
    (hq : x.Contains q) : |p - q| ≤ 2 ^ x.exponent := by
  have hp' := hp.abs_sub_le hx
  have hq' := hq.abs_sub_le hx
  rw [abs_le] at hp' hq' ⊢
  rw [x.two_zpow_exponent]
  constructor <;> linarith [hp'.1, hp'.2, hq'.1, hq'.2]

/-- A decimal of few digits in the interval lies on a grid coarser than the last place. -/
theorem two_zpow_lt_of_contains (hlow : leadingBit ≤ x.mantissa) (hc : c < 10 ^ 15)
    (h : x.Contains (c * 10 ^ j)) : (2 : ℚ) ^ x.exponent < 10 ^ j := by
  have hx : 0 < x.mantissa := lt_of_lt_of_le (by decide) hlow
  have hl := h.bounds.1
  have hmantissa : (4 * leadingBit : ℕ) ≤ x.low + 2 :=
    (Nat.mul_le_mul_left 4 hlow).trans (Binary.low_add_two hx).1
  have hc' : (c : ℚ) < 10 ^ 15 := by exact_mod_cast hc
  have hten : (0 : ℚ) < 10 ^ j := by positivity
  have hquarter := x.quarter_pos
  have hlow' : ((4 * leadingBit - 2 : ℕ) : ℚ) ≤ x.low := Nat.cast_le.2 (by omega)
  have hchain : ((4 * leadingBit - 2 : ℕ) : ℚ) * x.quarter < 10 ^ 15 * 10 ^ j :=
    calc ((4 * leadingBit - 2 : ℕ) : ℚ) * x.quarter
        ≤ x.low * x.quarter := mul_le_mul_of_nonneg_right hlow' hquarter.le
      _ ≤ c * 10 ^ j := hl
      _ < 10 ^ 15 * 10 ^ j := mul_lt_mul_of_pos_right hc' hten
  rw [x.two_zpow_exponent]
  norm_num [leadingBit] at hchain
  linarith

/-- A decimal in the interval lies on no grid coarser than those of the search. -/
theorem le_coarsest_of_contains (hlow : leadingBit ≤ x.mantissa)
    (hhigh : x.mantissa < 2 * leadingBit) (hmin : -1074 ≤ x.exponent) (hmax : x.exponent ≤ 971)
    (h : x.Contains (c * 10 ^ j)) : j ≤ x.coarsest := by
  have hx : 0 < x.mantissa := lt_of_lt_of_le (by decide) hlow
  have hlog : x.mantissa.log2 = 52 := (Nat.log2_eq_iff hx.ne').2 ⟨hlow, hhigh⟩
  have hc : (1 : ℚ) ≤ c := by
    have hpos := h.pos hx
    have : c ≠ 0 := by rintro rfl; simp at hpos
    exact_mod_cast Nat.one_le_iff_ne_zero.2 this
  have hhigh' : (x.high : ℚ) ≤ 2 ^ (55 : ℤ) := by
    have : x.high ≤ 2 ^ 55 := by
      rw [Binary.high_eq]
      simp only [leadingBit] at hhigh
      omega
    exact_mod_cast this
  have hchain : (10 : ℚ) ^ j ≤ 10 ^ x.coarsest :=
    calc (10 : ℚ) ^ j ≤ c * 10 ^ j := le_mul_of_one_le_left (by positivity) hc
      _ ≤ x.high * x.quarter := h.bounds.2
      _ ≤ 2 ^ (55 : ℤ) * x.quarter := mul_le_mul_of_nonneg_right hhigh' x.quarter_pos.le
      _ = 2 ^ (x.exponent + 53) := by
        rw [Binary.quarter, ← zpow_add₀ two_ne_zero]
        congr 1
        ring
      _ ≤ 10 ^ ((x.exponent + 53) * 30103 / 100000 + 2) := two_zpow_le (by omega) (by omega)
      _ = 10 ^ x.coarsest := by
        rw [Binary.coarsest, hlog]
        congr 4
        push_cast
        ring
  exact (zpow_le_zpow_iff_right₀ (by norm_num)).1 hchain

/-- If the interval contains a decimal of few digits, then the decimal found is equal to it. -/
theorem decimal_of_contains (hlow : leadingBit ≤ x.mantissa)
    (hhigh : x.mantissa < 2 * leadingBit) (hmin : -1074 ≤ x.exponent) (hmax : x.exponent ≤ 971)
    (hc : c < 10 ^ 15) (h : x.Contains (c * 10 ^ j)) : (decimal x).toRat = c * 10 ^ j := by
  have hx : 0 < x.mantissa := lt_of_lt_of_le (by decide) hlow
  obtain ⟨hd, hno⟩ := contains_decimal hx
  have hj : j ≤ (decimal x).exponent := by
    by_contra hlt
    exact hno j (not_le.1 hlt) (le_coarsest_of_contains hlow hhigh hmin hmax h) c h
  -- both decimals lie on the grid of the second one
  obtain ⟨n, hn⟩ := Int.eq_ofNat_of_zero_le (sub_nonneg.2 hj)
  have hgrid : (decimal x).toRat = ((decimal x).digits * 10 ^ n : ℕ) * 10 ^ j := by
    rw [Decimal.toRat, show (decimal x).exponent = n + j by omega, zpow_add₀ (by norm_num),
      zpow_natCast]
    push_cast
    ring
  have hten : (0 : ℚ) < 10 ^ j := by positivity
  have hclose := (hd.abs_sub_le_width hx h).trans_lt (two_zpow_lt_of_contains hlow hc h)
  rw [hgrid, ← sub_mul, abs_mul, abs_of_pos hten, mul_lt_iff_lt_one_left hten] at hclose
  have heq : ((decimal x).digits * 10 ^ n : ℕ) = c := by
    have hint : |(((decimal x).digits * 10 ^ n : ℕ) : ℤ) - c| < 1 := by exact_mod_cast hclose
    have := Int.abs_lt_one_iff.1 hint
    omega
  rw [hgrid, heq]

end

end FramedRelay.Shortest
