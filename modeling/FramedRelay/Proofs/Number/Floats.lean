import FramedRelay.Proofs.Number.Rounding

/-!
# Binary64 arithmetic

`Represents x sign a` says that a float is a finite number, as its bits have it; operations take the
same number (`Represents.unpack`). What an operation computes is rounded to the nearest (`Rounds`):
products (`Represents.mul`), quotients (`Represents.div`) and integers (`rounds_toFloat`). What is
rounded to no infinity is rounded to a finite number whose interval contains it
(`Rounds.exists_represents`), so it is at most half a unit in the last place away
(`Binary.Canonical.abs_sub_le`).
-/

open Float.Model Float.Model.UnpackedFloat

namespace FramedRelay.Shortest

/-! ## Bits -/

/-- The exponent field of some bits. -/
def field (bits : UInt64) : ℕ := bits.toNat / leadingBit % 2048

theorem toNat_unpackMantissa (b : BitVec 64) :
    (@unpackMantissa Format.binary64 b).toNat = b.toNat % leadingBit := by
  simp [unpackMantissa, leadingBit]

theorem toNat_unpackExponent (b : BitVec 64) :
    (@unpackExponent Format.binary64 b).toNat = b.toNat / leadingBit % 2048 := by
  simp [unpackExponent, leadingBit, BitVec.extractLsb, Nat.shiftRight_eq_div_pow]

theorem toNat_unpackSign (b : BitVec 64) :
    (@unpackSign Format.binary64 b).toNat = b.toNat / 2 ^ 63 := by
  have hlt : b.toNat < 2 ^ 64 := b.isLt
  simp [unpackSign, BitVec.extractLsb, Nat.shiftRight_eq_div_pow]
  omega

/-- The sign that says whether a number is negative. -/
def signOf (negative : Bool) : Sign := if negative then .negative else .positive

theorem ofBitVec_unpackSign (bits : UInt64) :
    Sign.ofBitVec (@unpackSign Format.binary64 bits.toBitVec) =
      signOf (isNegative bits) := by
  have hsign := toNat_unpackSign bits.toBitVec
  have hlt : bits.toBitVec.toNat < 2 ^ 64 := bits.toBitVec.isLt
  have hbits : bits.toBitVec.toNat = bits.toNat := rfl
  have hsize : UInt64.size / 2 = 2 ^ 63 := rfl
  rw [Sign.ofBitVec, signOf, isNegative, hsize]
  by_cases h : 2 ^ 63 ≤ bits.toNat
  · rw [if_neg, if_pos (by simpa using h)]
    intro hzero
    rw [hzero] at hsign
    simp at hsign
    omega
  · rw [if_pos, if_neg (by simpa using h)]
    apply BitVec.eq_of_toNat_eq
    rw [hsign]
    simp
    omega

theorem finite_congr {s : Sign} {m m' : ℕ} {e e' : ℤ} {hm : 0 < m} {hm' : 0 < m'} (h : m = m')
    (he : e = e') : UnpackedFloat.finite s m e hm = .finite s m' e' hm' := by
  subst h he
  rfl

/-- What operations take of a finite number are its sign and its magnitude. -/
theorem unpack_eq (x : Float) (h : field x.toBits ≠ 2047) :
    x.toModel.unpack = (Binary.ofBits x.toBits).unpacked (signOf (isNegative x.toBits)) := by
  have hmantissa := toNat_unpackMantissa x.toBits.toBitVec
  have hexponent := toNat_unpackExponent x.toBits.toBitVec
  have hbits : x.toBits.toBitVec.toNat = x.toBits.toNat := rfl
  have hmodel : x.toModel.toBits = x.toBits := rfl
  have hfield : x.toBits.toNat / leadingBit % 2048 = field x.toBits := rfl
  rw [hbits] at hmantissa hexponent
  rw [hfield] at hexponent
  rw [Float.Model.unpack, hmodel, UnpackedFloat.unpack]
  simp only [ofBitVec_unpackSign]
  rw [if_neg (by
    intro hall
    rw [hall] at hexponent
    exact h hexponent.symm)]
  by_cases hzero : field x.toBits = 0
  · have hvec : @unpackExponent Format.binary64 x.toBits.toBitVec = 0#11 :=
      BitVec.eq_of_toNat_eq (hexponent.trans hzero)
    have hx : Binary.ofBits x.toBits = ⟨x.toBits.toNat % leadingBit, -1074⟩ := by
      simp only [Binary.ofBits, hfield, hzero, if_true]
    rw [if_pos hvec, hx, Binary.unpacked]
    by_cases hfraction : x.toBits.toNat % leadingBit = 0
    · have hvec' : @unpackMantissa Format.binary64 x.toBits.toBitVec = 0#52 :=
        BitVec.eq_of_toNat_eq (hmantissa.trans hfraction)
      rw [dif_pos hvec', dif_pos hfraction]
    · rw [dif_neg (by
        intro hvec'
        rw [hvec'] at hmantissa
        exact hfraction hmantissa.symm), dif_neg hfraction]
      refine finite_congr hmantissa ?_
      rw [hexponent, hzero]
      rfl
  · have hvec : @unpackExponent Format.binary64 x.toBits.toBitVec ≠ 0#11 := by
      intro hvec
      rw [hvec] at hexponent
      exact hzero hexponent.symm
    have hx : Binary.ofBits x.toBits =
        ⟨leadingBit + x.toBits.toNat % leadingBit, (field x.toBits : ℤ) - 1075⟩ := by
      simp only [Binary.ofBits, hfield, hzero, if_false]
    rw [if_neg hvec, hx, Binary.unpacked, dif_neg (by simp [leadingBit])]
    refine finite_congr ?_ ?_
    · have hlt : x.toBits.toNat % leadingBit < 2 ^ 52 := Nat.mod_lt _ (by decide)
      rw [BitVec.toNat_append, hmantissa]
      exact (Nat.shiftLeft_add_eq_or_of_lt hlt 1).symm
    · rw [hexponent]
      rfl

theorem toNat_packComponents (s : Sign) (exponent : BitVec 11) (mantissa : BitVec 52) :
    (packComponents Format.binary64 s exponent mantissa).toNat =
      s.toBitVec.toNat * 2 ^ 63 + exponent.toNat * leadingBit + mantissa.toNat := by
  have hmantissa : mantissa.toNat < 2 ^ 52 := mantissa.isLt
  have hexponent : exponent.toNat < 2 ^ 11 := exponent.isLt
  rw [packComponents, BitVec.toNat_append, BitVec.toNat_append,
    ← Nat.shiftLeft_add_eq_or_of_lt hmantissa, ← Nat.shiftLeft_add_eq_or_of_lt hexponent]
  simp only [Nat.shiftLeft_eq, leadingBit]
  ring

/-- The number of a sign, an exponent field and a fraction. -/
theorem ofBits_packComponents (s : Sign) (exponent : BitVec 11) (mantissa : BitVec 52) :
    let bits := UInt64.ofBitVec (packComponents Format.binary64 s exponent mantissa)
    Binary.ofBits bits = (if exponent.toNat = 0 then ⟨mantissa.toNat, -1074⟩
        else ⟨leadingBit + mantissa.toNat, (exponent.toNat : ℤ) - 1075⟩) ∧
      field bits = exponent.toNat ∧ signOf (isNegative bits) = s := by
  intro bits
  have hbits : bits.toNat = s.toBitVec.toNat * 2 ^ 63 + exponent.toNat * leadingBit +
      mantissa.toNat := toNat_packComponents s exponent mantissa
  have hmantissa : mantissa.toNat < 2 ^ 52 := mantissa.isLt
  have hexponent : exponent.toNat < 2 ^ 11 := exponent.isLt
  have hsize : UInt64.size / 2 = 2 ^ 63 := rfl
  have hleading : leadingBit = 2 ^ 52 := rfl
  rw [hleading] at hbits
  have hfraction : bits.toNat % leadingBit = mantissa.toNat := by
    rw [hleading]
    omega
  have hfield : field bits = exponent.toNat := by
    rw [field, hleading]
    omega
  refine ⟨?_, hfield, ?_⟩
  · unfold field at hfield
    simp only [Binary.ofBits, hfraction, hfield]
  · cases s with
    | positive =>
      have hsign : Sign.positive.toBitVec.toNat = 0 := rfl
      have hlt : ¬2 ^ 63 ≤ bits.toNat := by omega
      rw [isNegative, hsize, decide_eq_false hlt]
      rfl
    | negative =>
      have hsign : Sign.negative.toBitVec.toNat = 1 := rfl
      have hle : 2 ^ 63 ≤ bits.toNat := by omega
      rw [isNegative, hsize, decide_eq_true hle]
      rfl

/-- The greatest exponent of a finite number. -/
def exponentLimit : ℤ := 971

namespace Binary

variable {x : Binary}

theorem Canonical.pack_subnormal (s : Sign) {m : ℕ} (hm : m < leadingBit) :
    (Float.Model.pack (unpacked s ⟨m, -1074⟩)).toBits =
      UInt64.ofBitVec (packComponents Format.binary64 s 0#11 (BitVec.ofNat 52 m)) := by
  show UInt64.ofBitVec (UnpackedFloat.pack Format.binary64 (unpacked s ⟨m, -1074⟩)) = _
  by_cases hzero : m = 0
  · subst hzero
    rfl
  · have hlog : m.log2 + 1 ≠ Format.binary64.mantissaBits := by
      have : m.log2 < 52 := (Nat.log2_lt hzero).2 hm
      have : Format.binary64.mantissaBits = 53 := rfl
      omega
    rw [unpacked, dif_neg hzero]
    simp only [UnpackedFloat.pack]
    rw [if_neg (by decide), if_neg hlog]

theorem Canonical.pack_normal (s : Sign) {m : ℕ} {e : ℤ} (hm : leadingBit ≤ m)
    (hlt : m < 2 * leadingBit) (he : -1074 ≤ e) (hle : e ≤ exponentLimit) :
    (Float.Model.pack (unpacked s ⟨m, e⟩)).toBits =
      UInt64.ofBitVec (packComponents Format.binary64 s (BitVec.ofNat 11 (e + 1075).toNat)
        (BitVec.ofNat 52 m)) := by
  have hzero : m ≠ 0 := by
    rintro rfl
    simp [leadingBit] at hm
  have hlog : m.log2 + 1 = Format.binary64.mantissaBits := by
    have hbits : Format.binary64.mantissaBits = 53 := rfl
    have hlow : 52 ≤ m.log2 := (Nat.le_log2 hzero).2 hm
    have hhigh : m.log2 < 53 := (Nat.log2_lt hzero).2 hlt
    omega
  have hbias : e + (Format.binary64.exponentBias : ℤ) +
      (Format.binary64.mantissaBitsWithoutImplicit : ℤ) = e + 1075 := by
    have : (Format.binary64.exponentBias : ℤ) = 1023 := rfl
    rw [this]
    simp
    ring
  show UInt64.ofBitVec (UnpackedFloat.pack Format.binary64 (unpacked s ⟨m, e⟩)) = _
  rw [unpacked, dif_neg hzero]
  simp only [UnpackedFloat.pack, hbias]
  rw [if_neg (by simp only [exponentLimit] at hle; simp; omega), if_pos hlog]

/-- A number in the form of the format that is not too large is what its bits say. -/
theorem Canonical.ofBits_pack (h : x.Canonical) (hle : x.exponent ≤ exponentLimit) (s : Sign) :
    let bits := (Float.Model.pack (x.unpacked s)).toBits
    Binary.ofBits bits = x ∧ field bits ≠ 2047 ∧ signOf (isNegative bits) = s := by
  intro bits
  obtain ⟨m, e⟩ := x
  obtain ⟨hlt, hge, hleading⟩ := h
  simp only at hlt hge hleading hle
  have hlimit : leadingBit = 2 ^ 52 := rfl
  rcases Nat.lt_or_ge m leadingBit with hm | hm
  · obtain rfl : e = -1074 := hleading.resolve_right (by omega)
    obtain ⟨hbits, hfield, hsign⟩ := ofBits_packComponents s 0#11 (BitVec.ofNat 52 m)
    rw [← pack_subnormal s hm] at hbits hfield hsign
    refine ⟨hbits.trans ?_, by rw [hfield]; decide, hsign⟩
    rw [if_pos (by rfl), BitVec.toNat_ofNat, ← hlimit, Nat.mod_eq_of_lt hm]
  · obtain ⟨hbits, hfield, hsign⟩ :=
      ofBits_packComponents s (BitVec.ofNat 11 (e + 1075).toNat) (BitVec.ofNat 52 m)
    rw [← pack_normal s hm hlt hge hle] at hbits hfield hsign
    simp only [exponentLimit] at hle
    have hexponent : (BitVec.ofNat 11 (e + 1075).toNat).toNat = (e + 1075).toNat := by
      rw [BitVec.toNat_ofNat, Nat.mod_eq_of_lt (by omega)]
    have hmantissa : (BitVec.ofNat 52 m).toNat = m - leadingBit := by
      rw [BitVec.toNat_ofNat, hlimit]
      omega
    refine ⟨hbits.trans ?_, by rw [hfield, hexponent]; omega, hsign⟩
    rw [hexponent, hmantissa, if_neg (by omega), Binary.mk.injEq]
    exact ⟨by omega, by omega⟩

end Binary

/-! ## Finite numbers -/

/-- A float is the finite number with this sign and this magnitude. -/
structure Represents (x : Float) (sign : Sign) (a : Binary) : Prop where
  ofBits_eq : Binary.ofBits x.toBits = a
  sign_eq : signOf (isNegative x.toBits) = sign
  field_ne : field x.toBits ≠ 2047
  canonical : a.Canonical

/-- A float is what rounding a number to the nearest gives. -/
def Rounds (x : Float) (sign : Sign) (q : ℚ) : Prop :=
  ∃ a : Binary, a.Canonical ∧ a.Contains q ∧ x = .ofModel (.pack (a.unpacked sign))

section

variable {x y : Float} {s s' : Sign} {a b : Binary} {q : ℚ}

theorem Represents.unpack (h : Represents x s a) : x.toModel.unpack = a.unpacked s := by
  rw [unpack_eq x h.field_ne, h.ofBits_eq, h.sign_eq]

theorem Binary.Canonical.represents (h : a.Canonical) (hle : a.exponent ≤ exponentLimit)
    (s : Sign) : Represents (.ofModel (.pack (a.unpacked s))) s a := by
  obtain ⟨hbits, hfield, hsign⟩ := h.ofBits_pack hle s
  exact ⟨hbits, hsign, hfield, h⟩

/-- A number in the form of the format that is too large is packed as an infinity. -/
theorem Binary.Canonical.isInf (h : a.Canonical) (hlt : exponentLimit < a.exponent) (s : Sign) :
    (Float.ofModel (.pack (a.unpacked s))).isInf = true := by
  obtain ⟨m, e⟩ := a
  simp only [exponentLimit] at hlt
  have hm : leadingBit ≤ m := h.leading.resolve_left (by simp only; omega)
  have hzero : m ≠ 0 := by
    rintro rfl
    simp [leadingBit] at hm
  have hbias : (Format.binary64.exponentBias : ℤ) = 1023 := rfl
  have hpack : UnpackedFloat.pack Format.binary64 (unpacked s ⟨m, e⟩) =
      packedInfinity Format.binary64 s := by
    rw [unpacked, dif_neg hzero]
    simp only [UnpackedFloat.pack, hbias]
    rw [if_pos (by simp; omega)]
  show (UnpackedFloat.unpack Format.binary64 (UInt64.ofBitVec
    (UnpackedFloat.pack Format.binary64 (unpacked s ⟨m, e⟩))).toBitVec).isInf = true
  rw [hpack, packedInfinity, UnpackedFloat.unpack]
  simp [UnpackedFloat.isInf]

/-- What is no infinity was rounded to a finite number. -/
theorem Rounds.exists_represents (h : Rounds x s q) (hx : x.isInf = false) :
    ∃ a, Represents x s a ∧ a.Contains q := by
  obtain ⟨a, hcanonical, hcontains, rfl⟩ := h
  refine ⟨a, hcanonical.represents ?_ s, hcontains⟩
  by_contra hlt
  rw [hcanonical.isInf (not_le.1 hlt) s] at hx
  cases hx

theorem Represents.exponent_le (h : Represents x s a) : a.exponent ≤ exponentLimit := by
  have hlt : field x.toBits < 2048 := Nat.mod_lt _ (by decide)
  have hne := h.field_ne
  rw [← h.ofBits_eq, exponentLimit]
  unfold field at hlt hne
  simp only [Binary.ofBits]
  split
  · show (-1074 : ℤ) ≤ 971
    decide
  · simp only
    omega

theorem Represents.neg (h : Represents x s a) : Represents (-x) (-s) a := by
  have hneg : -x = .ofModel (.pack (a.unpacked (-s))) := by
    show Float.ofModel (.pack x.toModel.unpack.neg) = _
    rw [h.unpack]
    unfold Binary.unpacked
    split <;> rfl
  rw [hneg]
  exact h.canonical.represents h.exponent_le (-s)

theorem rounds_zero (s : Sign) : Rounds (.ofModel (.pack (.zero s))) s 0 := by
  refine ⟨⟨0, -1074⟩, ⟨by decide, le_rfl, Or.inl rfl⟩, ?_, rfl⟩
  simp [Binary.Contains, Binary.low, Binary.high, Binary.quarters, Binary.isPowerBoundary]
  exact (Binary.quarter_pos _).le

/-- What `roundWithAccuracy` gives is rounded to the nearest. -/
theorem rounds_of_describes {m : ℕ} {e : ℤ} {accuracy : Accuracy} {r : ℚ}
    (h : Describes m accuracy r) (he : (m.log2 : ℤ) ≥ 52 ∨ e ≤ -1074) (s : Sign) :
    Rounds (.ofModel (.pack (roundWithAccuracy Format.binary64 s m e accuracy))) s
      (r * 2 ^ e) := by
  have htarget : e ≤ Format.binary64.targetExponent (totalExponent m e) := by
    rw [targetExponent_eq]
    omega
  obtain ⟨a, hcanonical, hcontains, heq⟩ := exists_canonical_of_round s h htarget
  exact ⟨a, hcanonical, hcontains, by rw [heq]⟩

/-! ## Operations -/

theorem log2_ge {m : ℕ} (h : leadingBit ≤ m) : 52 ≤ m.log2 :=
  (Nat.le_log2 (Nat.pos_iff_ne_zero.1 (lt_of_lt_of_le (by decide) h))).2 h

/-- A product with a number that is not subnormal is rounded to the nearest. -/
theorem Represents.mul (hx : Represents x s a) (hy : Represents y s' b)
    (hb : leadingBit ≤ b.mantissa) : Rounds (x * y) (s * s') (a.toRat * b.toRat) := by
  have hb' : b.mantissa ≠ 0 := Nat.pos_iff_ne_zero.1 (lt_of_lt_of_le (by decide) hb)
  have hmul : x * y = .ofModel (.pack
      (UnpackedFloat.mul Format.binary64 (a.unpacked s) (b.unpacked s'))) := by
    rw [← hx.unpack, ← hy.unpack]
    rfl
  rw [hmul, Binary.unpacked, Binary.unpacked, dif_neg hb']
  by_cases ha : a.mantissa = 0
  · rw [dif_pos ha, Binary.toRat, ha, Nat.cast_zero, zero_mul, zero_mul]
    exact rounds_zero _
  · rw [dif_neg ha]
    have hvalue : a.toRat * b.toRat =
        ((a.mantissa * b.mantissa : ℕ) : ℚ) * 2 ^ (a.exponent + b.exponent) := by
      rw [Binary.toRat, Binary.toRat, zpow_add₀ two_ne_zero]
      push_cast
      ring
    rw [hvalue]
    refine rounds_of_describes (show Describes _ .exact _ from rfl) (Or.inl ?_) _
    have : leadingBit ≤ a.mantissa * b.mantissa :=
      hb.trans (Nat.le_mul_of_pos_left _ (Nat.pos_of_ne_zero ha))
    exact_mod_cast log2_ge this

/-- The quotient of mantissas with the fraction that is left. -/
theorem describes_div {m n : ℕ} (hn : 0 < n) :
    Describes (m / n) (accuracyOfFraction (m % n) n) (m / n) := by
  have hn' : (0 : ℚ) < n := Nat.cast_pos.2 hn
  have hm : (m : ℚ) = (m / n : ℕ) * n + (m % n : ℕ) := by
    exact_mod_cast (by rw [Nat.mul_comm]; exact (Nat.div_add_mod m n).symm : m = m / n * n + m % n)
  have hq : (m : ℚ) / n = (m / n : ℕ) + (m % n : ℕ) / (n : ℚ) := by
    rw [hm]
    field_simp
  have hlt : ((m % n : ℕ) : ℚ) / n < 1 := by
    rw [div_lt_one hn']
    exact_mod_cast Nat.mod_lt m hn
  rw [hq]
  unfold accuracyOfFraction
  split_ifs with hzero
  · simp [Describes, hzero]
  · have hpos : (0 : ℚ) < (m % n : ℕ) / (n : ℚ) :=
      div_pos (Nat.cast_pos.2 (Nat.pos_of_ne_zero hzero)) hn'
    rcases Nat.lt_trichotomy (2 * (m % n)) n with h | h | h
    · have hhalf : ((m % n : ℕ) : ℚ) / n < 1 / 2 := by
        rw [div_lt_div_iff₀ hn' two_pos]
        exact_mod_cast (by omega : m % n * 2 < 1 * n)
      rw [Nat.compare_eq_lt.2 h]
      exact ⟨by linarith, by linarith⟩
    · have hhalf : ((m % n : ℕ) : ℚ) / n = 1 / 2 := by
        rw [div_eq_div_iff hn'.ne' two_ne_zero]
        exact_mod_cast (by omega : m % n * 2 = 1 * n)
      rw [Nat.compare_eq_eq.2 h]
      simp only [Describes]
      linarith
    · have hhalf : 1 / 2 < ((m % n : ℕ) : ℚ) / n := by
        rw [div_lt_div_iff₀ two_pos hn']
        exact_mod_cast (by omega : 1 * n < m % n * 2)
      rw [Nat.compare_eq_gt.2 h]
      exact ⟨by linarith, by linarith⟩

/-- A quotient is rounded to the nearest. -/
theorem Represents.div (hx : Represents x s a) (hy : Represents y s' b) (hb : 0 < b.mantissa) :
    Rounds (x / y) (s / s') (a.toRat / b.toRat) := by
  have hdiv : x / y = .ofModel (.pack
      (UnpackedFloat.div Format.binary64 (a.unpacked s) (b.unpacked s'))) := by
    rw [← hx.unpack, ← hy.unpack]
    rfl
  rw [hdiv, Binary.unpacked, Binary.unpacked, dif_neg hb.ne']
  by_cases ha : a.mantissa = 0
  · rw [dif_pos ha, Binary.toRat, ha, Nat.cast_zero, zero_mul, zero_div]
    exact rounds_zero _
  · rw [dif_neg ha]
    simp only [UnpackedFloat.div, divCore]
    generalize ht : min (a.exponent - b.exponent) (Format.binary64.targetExponent
      (totalExponent a.mantissa a.exponent - totalExponent b.mantissa b.exponent)) = t
    obtain ⟨k, hk⟩ : ∃ k : ℕ, a.exponent - b.exponent - t = k :=
      ⟨(a.exponent - b.exponent - t).toNat, by omega⟩
    rw [hk, Int.toNat_natCast, Nat.shiftLeft_eq]
    have hvalue : a.toRat / b.toRat =
        (((a.mantissa * 2 ^ k : ℕ) : ℚ) / b.mantissa) * 2 ^ t := by
      have hexponent : a.exponent = b.exponent + k + t := by omega
      rw [Binary.toRat, Binary.toRat, hexponent, zpow_add₀ two_ne_zero, zpow_add₀ two_ne_zero,
        zpow_natCast]
      have : (b.mantissa : ℚ) ≠ 0 := Nat.cast_ne_zero.2 hb.ne'
      push_cast
      field_simp
    rw [hvalue]
    refine rounds_of_describes (describes_div hb) ?_ _
    have hbits : (Format.binary64.mantissaBits : ℤ) = 53 := rfl
    have hmin : Format.binary64.minExponent = -1074 := by decide
    rw [Format.targetExponent, totalExponent, totalExponent, hbits, hmin] at ht
    rcases le_or_gt t (-1074) with hle | hgt
    · exact Or.inr hle
    · -- the shift makes the dividend so long that the quotient has all the bits
      have hlong : 53 + b.mantissa.log2 ≤ a.mantissa.log2 + k := by omega
      have hfull : leadingBit ≤ a.mantissa * 2 ^ k / b.mantissa := by
        rw [Nat.le_div_iff_mul_le hb]
        calc leadingBit * b.mantissa
            ≤ 2 ^ 52 * 2 ^ (b.mantissa.log2 + 1) :=
              Nat.mul_le_mul_left _ Nat.lt_log2_self.le
          _ = 2 ^ (53 + b.mantissa.log2) := by rw [← pow_add]; congr 1; omega
          _ ≤ 2 ^ (a.mantissa.log2 + k) := Nat.pow_le_pow_right two_pos hlong
          _ ≤ a.mantissa * 2 ^ k := by
              rw [pow_add]
              exact Nat.mul_le_mul_right _ (Nat.log2_self_le ha)
      have := log2_ge hfull
      exact Or.inl (by omega)

/-- A natural number is rounded to the nearest. -/
theorem rounds_toFloat {n : ℕ} (hn : n < UInt64.size) :
    Rounds (UInt64.ofNat n).toFloat .positive n := by
  have htoNat : (UInt64.ofNat n).toNat = n := UInt64.toNat_ofNat_of_lt' hn
  show Rounds (.ofModel (.pack (UnpackedFloat.ofNat Format.binary64 (UInt64.ofNat n).toNat))) _ _
  rw [htoNat, UnpackedFloat.ofNat, UnpackedFloat.ofInt, UnpackedFloat.normalize]
  rcases Nat.eq_zero_or_pos n with rfl | hpos
  · rw [Nat.cast_zero, Nat.cast_zero]
    exact rounds_zero .positive
  · have hcompare : compare (n : ℤ) 0 = .gt := by
      rw [compare_gt_iff_gt]
      exact_mod_cast hpos
    simp only [hcompare, UnpackedFloat.round, decreaseExponent, Int.toNat_natCast,
      Nat.shiftLeft_eq]
    generalize hk : (0 - Format.binary64.targetExponent (totalExponent n 0)).toNat = k
    have hvalue : (n : ℚ) = ((n * 2 ^ k : ℕ) : ℚ) * 2 ^ ((0 : ℤ) - k) := by
      rw [zero_sub, zpow_neg, zpow_natCast]
      push_cast
      field_simp
    rw [targetExponent_eq] at hk
    rw [hvalue]
    refine rounds_of_describes (show Describes _ .exact _ from rfl) (Or.inl ?_) _
    have hlog : n.log2 + k ≤ (n * 2 ^ k).log2 := by
      rw [Nat.le_log2 (by positivity), pow_add]
      exact Nat.mul_le_mul_right _ (Nat.log2_self_le hpos.ne')
    omega

/-- Nothing but a zero is equal to zero. -/
theorem Represents.beq_zero (h : Represents x .positive a) :
    (x == 0) = decide (a.mantissa = 0) := by
  have hzero : (0 : Float).toModel.unpack = .zero .positive := rfl
  show (x.toModel.unpack.beq (0 : Float).toModel.unpack) = _
  rw [h.unpack, hzero, Binary.unpacked]
  by_cases ha : a.mantissa = 0
  · rw [dif_pos ha, decide_eq_true ha]
    rfl
  · rw [dif_neg ha, decide_eq_false ha]
    rfl

/-! ## Errors -/

namespace Binary

/-- The least subnormal number, halved. -/
def tiny : ℚ := 1 / 2 ^ 1075

variable {a : Binary} {q : ℚ}

theorem tiny_pos : 0 < tiny := by unfold tiny; positivity

theorem two_zpow_pred (e : ℤ) : (2 : ℚ) ^ (e - 1) = 2 ^ e / 2 := zpow_sub_one₀ two_ne_zero e

/-- Half a unit in the last place is little. -/
theorem Canonical.half_ulp_le (h : a.Canonical) :
    (2 : ℚ) ^ (a.exponent - 1) ≤ a.toRat / 2 ^ 53 + tiny := by
  rcases h.leading with he | hm
  · have hrat : 0 ≤ a.toRat := by unfold toRat; positivity
    have htiny : (2 : ℚ) ^ (a.exponent - 1) = tiny := by
      rw [he, tiny]
      norm_num
    rw [htiny]
    exact le_add_of_nonneg_left (by positivity)
  · have hm' : (2 : ℚ) ^ 52 ≤ a.mantissa := by exact_mod_cast hm
    have hpow : (0 : ℚ) < 2 ^ a.exponent := by positivity
    have htiny := tiny_pos
    rw [two_zpow_pred, toRat]
    have := mul_le_mul_of_nonneg_right hm' hpow.le
    rw [div_add' _ _ _ (by positivity), div_le_div_iff₀ (by positivity) (by positivity)]
    nlinarith

/-- What the interval contains is at most half a unit in the last place from the number, zero
included. -/
theorem Contains.abs_sub_le_half (h : a.Contains q) :
    |q - a.toRat| ≤ 2 ^ (a.exponent - 1) := by
  have htwo : (2 : ℚ) ^ (a.exponent - 1) = 2 * a.quarter := by
    rw [two_zpow_pred, two_zpow_exponent]
    ring
  rcases Nat.eq_zero_or_pos a.mantissa with hzero | hpos
  · obtain ⟨hl, hh⟩ := h.bounds
    have hlow : a.low = 0 := by simp [low, quarters, hzero]
    rw [hlow, Nat.cast_zero, zero_mul] at hl
    rw [high_eq, hzero] at hh
    rw [htwo, toRat, hzero, Nat.cast_zero, zero_mul, sub_zero, abs_of_nonneg hl]
    simpa using hh
  · exact htwo ▸ h.abs_sub_le hpos

theorem Canonical.abs_sub_le (h : a.Canonical) (hq : a.Contains q) :
    |q - a.toRat| ≤ a.toRat / 2 ^ 53 + tiny :=
  hq.abs_sub_le_half.trans h.half_ulp_le

/-- What is not small is rounded to no subnormal number. -/
theorem Canonical.leadingBit_le (h : a.Canonical) (hq : a.Contains q) (hlarge : 1 / 2 ^ 1021 ≤ q) :
    leadingBit ≤ a.mantissa := by
  by_contra hlt
  have he : a.exponent = -1074 := h.leading.resolve_right hlt
  have hhigh : (a.high : ℚ) ≤ 2 ^ 54 := by
    have : a.high ≤ 2 ^ 54 := by
      have : leadingBit = 2 ^ 52 := rfl
      rw [high_eq]
      omega
    exact_mod_cast this
  have hle : q ≤ 2 ^ 54 * a.quarter :=
    hq.bounds.2.trans (mul_le_mul_of_nonneg_right hhigh a.quarter_pos.le)
  have hpow : (2 : ℚ) ^ 54 * a.quarter = 2 ^ (-1022 : ℤ) := by
    rw [quarter, he, ← zpow_natCast, ← zpow_add₀ two_ne_zero]
    rfl
  have hone : (1 / 2 ^ 1021 : ℚ) = 2 ^ (-1021 : ℤ) := by
    rw [one_div, ← zpow_natCast, ← zpow_neg]
    rfl
  have hlt : (2 : ℚ) ^ (-1022 : ℤ) < 2 ^ (-1021 : ℤ) :=
    zpow_lt_zpow_right₀ (by norm_num) (by norm_num)
  rw [hpow] at hle
  rw [hone] at hlarge
  exact absurd (hlarge.trans hle) (not_le.2 hlt)

/-- What is not large is rounded to a finite number. -/
theorem Canonical.exponent_le (h : a.Canonical) (hq : a.Contains q) (hsmall : q ≤ 10 ^ 308) :
    a.exponent ≤ exponentLimit := by
  by_contra hlt
  rw [exponentLimit, not_le] at hlt
  have hm : leadingBit ≤ a.mantissa := h.leading.resolve_left (by omega)
  have hlow : (2 ^ 54 - 2 : ℚ) ≤ a.low := by
    have hmantissa : (2 : ℚ) ^ 52 ≤ a.mantissa := by exact_mod_cast hm
    have : ((4 * a.mantissa : ℕ) : ℚ) ≤ a.low + 2 := by
      exact_mod_cast (low_add_two (lt_of_lt_of_le (by decide) hm)).1
    push_cast at this
    linarith
  have hquarter : (2 : ℚ) ^ 970 ≤ a.quarter := by
    rw [quarter, ← zpow_natCast]
    exact zpow_le_zpow_right₀ (by norm_num) (by push_cast; omega)
  have hle : (2 ^ 54 - 2 : ℚ) * 2 ^ 970 ≤ q :=
    (mul_le_mul hlow hquarter (by positivity) (Nat.cast_nonneg _)).trans hq.bounds.1
  have hlt : (10 : ℚ) ^ 308 < (2 ^ 54 - 2) * 2 ^ 970 := by
    calc (10 : ℚ) ^ 308 = (10 ^ 28) ^ 11 := by rw [← pow_mul]
      _ ≤ (2 ^ 93 * (101 / 100)) ^ 11 := pow_le_pow_left₀ (by norm_num) (by norm_num) 11
      _ = 2 ^ 53 * (101 / 100) ^ 11 * 2 ^ 970 := by
        rw [mul_pow, ← pow_mul, show 93 * 11 = 53 + 970 from rfl, pow_add]
        exact mul_right_comm _ _ _
      _ < (2 ^ 54 - 2) * 2 ^ 970 := mul_lt_mul_of_pos_right (by norm_num) (by positivity)
  exact absurd (hle.trans hsmall) (not_le.2 hlt)

end Binary

end

end FramedRelay.Shortest
