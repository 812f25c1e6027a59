import Mathlib.Tactic
import FramedRelay.Proofs.Json.Literal

/-!
# Reading number literals

`Numeral.read?` is what is kept of the number that some bytes spell. If it is anything, the bytes
are those of a literal (`Numeral.exists_literal`).

What is gathered of a literal is described part by part, in the order in which a reader goes through
it (`Numeral.Scans`, `Numeral.Scales`). Digits that no longer fit are dropped, but so few that what
is left is off by one part in `2 ^ 60` at most (`Numeral.Gathered`). `Numeral.takes_of_whole?` puts
the parts together.
-/

namespace FramedRelay.Json

namespace Numeral

/-- The number after some bytes, all of which belong to it. -/
def run? : Numeral → Bytes → Option Numeral
  | n, [] => some n
  | n, b :: bs =>
    match n.step b with
    | .more n' => n'.run? bs
    | _ => none

/-- The number that bytes spell, if they spell a whole one. -/
def whole? : Bytes → Option Numeral
  | [] => none
  | b :: bs => ((start? b).bind fun n => n.run? bs).filter fun n => n.phase.complete

/-- What is kept of the number that bytes spell. -/
def read? (bs : Bytes) : Option Number := (whole? bs).bind value?

/-! ## What is read is a literal -/

/-- The bytes of a fraction and of an exponent. -/
def tailBytes (fraction : Bytes) (e? : Option Exponent) : Bytes :=
  (if fraction = [] then [] else 0x2E :: fraction) ++ (e?.map Exponent.bytes).getD []

/-- The bytes that come complete a number at a phase. -/
def Phase.Completes (ds : Bytes) : Phase → Prop
  | .minus => ∃ l : Literal, l.negative = false ∧ ds = l.bytes
  | .zero => ∃ fraction e?, (∀ b ∈ fraction, isDigit b = true) ∧ ds = tailBytes fraction e?
  | .integer => ∃ whole fraction e?, (∀ b ∈ whole, isDigit b = true) ∧
      (∀ b ∈ fraction, isDigit b = true) ∧ ds = whole ++ tailBytes fraction e?
  | .point => ∃ fraction e?, fraction ≠ [] ∧ (∀ b ∈ fraction, isDigit b = true) ∧
      ds = fraction ++ tailBytes [] e?
  | .fraction => ∃ fraction e?, (∀ b ∈ fraction, isDigit b = true) ∧
      ds = fraction ++ tailBytes [] e?
  | .mark => ∃ e : Exponent, ds = e.sign ++ e.digits
  | .sign => ds ≠ [] ∧ ∀ b ∈ ds, isDigit b = true
  | .exponent => ∀ b ∈ ds, isDigit b = true

namespace Phase

variable {p p' : Phase} {b : UInt8} {ds : Bytes}

theorem completes_nil (h : p.complete = true) : p.Completes [] := by
  cases p with
  | zero => exact ⟨[], none, by simp, rfl⟩
  | integer => exact ⟨[], [], none, by simp, by simp, rfl⟩
  | fraction => exact ⟨[], none, by simp, rfl⟩
  | exponent => simp [Completes]
  | minus | point | mark | sign => cases h

theorem needDigit_eq_more (h : needDigit b p = .more p') : isDigit b = true ∧ p' = p := by
  unfold needDigit at h
  split at h
  · next hb => exact ⟨hb, (Turn.more.inj h).symm⟩
  · cases h

/-- A number does not end before it is complete. -/
theorem complete_of_ended (h : p.step b = .ended) : p.complete = true := by
  have hneed : ∀ p', needDigit b p' ≠ .ended := by
    intro p'
    unfold needDigit
    split <;> simp
  cases p with
  | zero | integer | fraction | exponent => rfl
  | minus | mark =>
    simp only [step] at h
    split_ifs at h
    exact absurd h (hneed _)
  | point | sign => exact absurd h (hneed _)

/-- After the whole part comes a point or the mark of an exponent. -/
theorem completes_of_afterInteger (h : afterInteger b = .more p') (hds : p'.Completes ds) :
    ∃ fraction e?, (∀ b ∈ fraction, isDigit b = true) ∧ b :: ds = tailBytes fraction e? := by
  unfold afterInteger at h
  split_ifs at h with hpoint hmark
  · obtain rfl := Turn.more.inj h
    obtain ⟨fraction, e?, hne, hfraction, rfl⟩ := hds
    exact ⟨fraction, e?, hfraction, by simp [tailBytes, hne, hpoint]⟩
  · obtain rfl := Turn.more.inj h
    obtain ⟨e, rfl⟩ := hds
    exact ⟨[], some { e with mark := b, mark_eq := hmark }, by simp,
      by simp [tailBytes, Exponent.bytes]⟩

theorem forall_isDigit_cons (hb : isDigit b = true) (h : ∀ b ∈ ds, isDigit b = true) :
    ∀ c ∈ b :: ds, isDigit c = true :=
  List.forall_mem_cons.2 ⟨hb, h⟩

theorem completes_cons (h : p.step b = .more p') (hds : p'.Completes ds) :
    p.Completes (b :: ds) := by
  cases p with
  | minus =>
    simp only [step] at h
    split_ifs at h with hb
    · obtain rfl := Turn.more.inj h
      obtain ⟨fraction, e?, hfraction, rfl⟩ := hds
      refine ⟨⟨false, [b], fraction, e?, by simp, by simp [hb, isDigit], by simp, hfraction⟩,
        rfl, ?_⟩
      simp [Literal.bytes, Literal.signBytes, Literal.fractionBytes, Literal.exponentBytes,
        tailBytes]
    · obtain ⟨hdigit, rfl⟩ := needDigit_eq_more h
      obtain ⟨whole, fraction, e?, hwhole, hfraction, rfl⟩ := hds
      refine ⟨⟨false, b :: whole, fraction, e?, by simp, forall_isDigit_cons hdigit hwhole,
        by simp [hb], hfraction⟩, rfl, ?_⟩
      simp [Literal.bytes, Literal.signBytes, Literal.fractionBytes, Literal.exponentBytes,
        tailBytes]
  | zero =>
    simp only [step] at h
    split_ifs at h with hb
    exact completes_of_afterInteger h hds
  | integer =>
    simp only [step] at h
    split_ifs at h with hb
    · obtain rfl := Turn.more.inj h
      obtain ⟨whole, fraction, e?, hwhole, hfraction, rfl⟩ := hds
      exact ⟨b :: whole, fraction, e?, forall_isDigit_cons hb hwhole, hfraction, rfl⟩
    · obtain ⟨fraction, e?, hfraction, heq⟩ := completes_of_afterInteger h hds
      exact ⟨[], fraction, e?, by simp, hfraction, heq⟩
  | point =>
    obtain ⟨hb, rfl⟩ := needDigit_eq_more h
    obtain ⟨fraction, e?, hfraction, rfl⟩ := hds
    exact ⟨b :: fraction, e?, by simp, forall_isDigit_cons hb hfraction, rfl⟩
  | fraction =>
    simp only [step] at h
    split_ifs at h with hb hmark
    · obtain rfl := Turn.more.inj h
      obtain ⟨fraction, e?, hfraction, rfl⟩ := hds
      exact ⟨b :: fraction, e?, forall_isDigit_cons hb hfraction, rfl⟩
    · obtain rfl := Turn.more.inj h
      obtain ⟨e, rfl⟩ := hds
      exact ⟨[], some { e with mark := b, mark_eq := hmark }, by simp,
        by simp [tailBytes, Exponent.bytes]⟩
  | mark =>
    simp only [step] at h
    split_ifs at h with hsign
    · obtain rfl := Turn.more.inj h
      obtain ⟨hne, hdigits⟩ := hds
      refine ⟨⟨0x65, [b], ds, Or.inl rfl, Or.inr ?_, hne, hdigits⟩, rfl⟩
      exact hsign.imp (by rintro rfl; rfl) (by rintro rfl; rfl)
    · obtain ⟨hb, rfl⟩ := needDigit_eq_more h
      exact ⟨⟨0x65, [], b :: ds, Or.inl rfl, Or.inl rfl, by simp, forall_isDigit_cons hb hds⟩, rfl⟩
  | sign =>
    obtain ⟨hb, rfl⟩ := needDigit_eq_more h
    exact ⟨by simp, forall_isDigit_cons hb hds⟩
  | exponent =>
    simp only [step] at h
    split_ifs at h with hb
    obtain rfl := Turn.more.inj h
    exact forall_isDigit_cons hb hds

/-- The first byte of a number, before bytes that complete it. -/
theorem exists_literal_of_start? (h : start? b = some p) (hds : p.Completes ds) :
    ∃ l : Literal, l.bytes = b :: ds := by
  unfold start? at h
  split_ifs at h with hminus hzero hdigit
  · obtain rfl := Option.some.inj h
    obtain ⟨l, hpositive, rfl⟩ := hds
    refine ⟨{ l with negative := true }, ?_⟩
    simp [Literal.bytes, Literal.signBytes, hpositive, hminus, Literal.fractionBytes,
      Literal.exponentBytes]
  -- a number without a minus sign is one that could stand after the sign
  · obtain rfl := Option.some.inj h
    obtain ⟨l, -, heq⟩ : Phase.minus.Completes (b :: ds) :=
      completes_cons (by simp [step, hzero]) hds
    exact ⟨l, heq.symm⟩
  · obtain rfl := Option.some.inj h
    obtain ⟨l, -, heq⟩ : Phase.minus.Completes (b :: ds) :=
      completes_cons (by simp [step, hzero, needDigit, hdigit]) hds
    exact ⟨l, heq.symm⟩

end Phase

variable {n n' : Numeral} {b : UInt8} {bs : Bytes}

theorem phase_enter {p : Phase} (h : n.enter p b = .more n') : n'.phase = p := by
  unfold enter at h
  cases p with
  | zero | integer =>
    obtain rfl := Turn.more.inj h
    unfold pushInteger
    split <;> rfl
  | fraction =>
    obtain rfl := Turn.more.inj h
    unfold pushFraction
    split <;> rfl
  | exponent =>
    simp only at h
    split at h
    · next hpush =>
      obtain rfl := Turn.more.inj h
      unfold pushExponent? at hpush
      split_ifs at hpush <;> (obtain rfl := Option.some.inj hpush; rfl)
    · cases h
  | minus | mark | point | sign =>
    obtain rfl := Turn.more.inj h
    rfl

theorem phase_step (h : n.step b = .more n') : n.phase.step b = .more n'.phase := by
  unfold step at h
  split at h
  · next p hp => rw [hp, phase_enter h]
  · cases h
  · cases h

theorem enter_ne_ended (p : Phase) : n.enter p b ≠ .ended := by
  unfold enter
  cases p with
  | exponent =>
    simp only
    split <;> simp
  | _ => simp

theorem complete_of_ended (h : n.step b = .ended) : n.phase.complete = true := by
  refine Phase.complete_of_ended (b := b) ?_
  unfold step at h
  split at h
  · next p _ => exact absurd h (enter_ne_ended p)
  · assumption
  · cases h

theorem completes_of_run? (h : n.run? bs = some n') (hcomplete : n'.phase.complete = true) :
    n.phase.Completes bs := by
  induction bs generalizing n with
  | nil =>
    obtain rfl := Option.some.inj h
    exact Phase.completes_nil hcomplete
  | cons b bs ih =>
    simp only [run?] at h
    split at h
    · next n'' hstep => exact Phase.completes_cons (phase_step hstep) (ih h)
    · cases h

/-- Bytes that are read as a number are those of a literal. -/
theorem exists_literal (h : whole? bs = some n) : ∃ l : Literal, l.bytes = bs := by
  cases bs with
  | nil => cases h
  | cons b bs =>
    obtain ⟨hrun, hcomplete⟩ := Option.filter_eq_some_iff.1 h
    obtain ⟨first, hstart, hrun⟩ := Option.bind_eq_some_iff.1 hrun
    obtain ⟨p, hp, rfl⟩ := Option.map_eq_some_iff.1 hstart
    exact Phase.exists_literal_of_start? hp (completes_of_run? hrun hcomplete)

/-! ## The digits gathered -/

/-- What is gathered of the digits of the number `digits`: all of them, or the first ones, `dropped`
fewer, of which the last one may belong to a later place. -/
def Gathered (significand dropped digits : ℕ) : Prop :=
  significand * 10 ^ dropped ≤ digits ∧ digits < (significand + 1) * 10 ^ dropped ∧
      (0 < dropped → 2 ^ 60 ≤ significand) ∨
    10 * 2 ^ 60 ≤ significand ∧ significand * 10 ^ dropped ≤ digits + 9 * 10 ^ dropped ∧
      digits < (significand + 10) * 10 ^ dropped

namespace Gathered

variable {significand dropped digits d : ℕ}

theorem refl (digits : ℕ) : Gathered digits 0 digits := by simp [Gathered]

/-- A digit is gathered. It may come after one that was dropped: a point was between them. -/
theorem push (h : Gathered significand dropped digits) (hd : d ≤ 9)
    (hfits : 10 * significand + d < significandLimit) :
    Gathered (10 * significand + d) dropped (10 * digits + d) := by
  rcases h with ⟨hle, hlt, hlarge⟩ | ⟨hlarge, -, -⟩
  · rcases Nat.eq_zero_or_pos dropped with rfl | hpos
    · exact Or.inl ⟨by omega, by omega, by simp⟩
    · have hone : 1 ≤ 10 ^ dropped := Nat.one_le_pow _ _ (by decide)
      refine Or.inr ⟨by have := hlarge hpos; omega, ?_, ?_⟩ <;> nlinarith
  · have : significandLimit = 2 ^ 64 := rfl
    omega

/-- A digit is dropped. -/
theorem drop (h : Gathered significand dropped digits) (hd : d ≤ 9)
    (hfull : 0 < dropped ∨ significandLimit ≤ 10 * significand + d) :
    Gathered significand (dropped + 1) (10 * digits + d) := by
  have hlimit : significandLimit = 2 ^ 64 := rfl
  rcases h with ⟨hle, hlt, hlarge⟩ | ⟨hlarge, hle, hlt⟩
  · refine Or.inl ⟨?_, ?_, fun _ => hfull.elim hlarge fun h => by omega⟩ <;> rw [pow_succ] <;>
      nlinarith
  · refine Or.inr ⟨hlarge, ?_, ?_⟩ <;> rw [pow_succ] <;> nlinarith

/-- What was dropped is little. -/
theorem abs_sub_le (h : Gathered significand dropped digits) :
    |(digits : ℚ) - significand * 10 ^ dropped| * 2 ^ 60 ≤ significand * 10 ^ dropped := by
  have hpow : (0 : ℚ) < 10 ^ dropped := by positivity
  rcases h with ⟨hle, hlt, hlarge⟩ | ⟨hlarge, hle, hlt⟩
  · rcases Nat.eq_zero_or_pos dropped with rfl | hpos
    · obtain rfl : digits = significand := by omega
      simp
    · have hle' : (significand : ℚ) * 10 ^ dropped ≤ digits := by exact_mod_cast hle
      have hlt' : (digits : ℚ) < (significand + 1) * 10 ^ dropped := by exact_mod_cast hlt
      have hlarge' : (2 : ℚ) ^ 60 ≤ significand := by exact_mod_cast hlarge hpos
      rw [abs_of_nonneg (by linarith)]
      nlinarith
  · have hle' : (significand : ℚ) * 10 ^ dropped ≤ digits + 9 * 10 ^ dropped := by
      exact_mod_cast hle
    have hlt' : (digits : ℚ) < (significand + 10) * 10 ^ dropped := by exact_mod_cast hlt
    have hlarge' : (10 : ℚ) * 2 ^ 60 ≤ significand := by exact_mod_cast hlarge
    have habs : |(digits : ℚ) - significand * 10 ^ dropped| ≤ 10 * 10 ^ dropped :=
      abs_le.2 ⟨by linarith, by linarith⟩
    nlinarith

theorem eq_zero (h : Gathered 0 dropped digits) : digits = 0 := by
  have habs := h.abs_sub_le
  rw [Nat.cast_zero, zero_mul, sub_zero, Nat.abs_cast] at habs
  have : (digits : ℚ) ≤ 0 := by linarith
  exact_mod_cast this.antisymm (Nat.cast_nonneg digits)

/-- Nothing is dropped of few digits. -/
theorem eq_of_lt (h : Gathered significand dropped digits) (hdigits : digits < 10 ^ 15) :
    dropped = 0 ∧ significand = digits := by
  have hdropped : dropped = 0 := by
    by_contra hne
    have hpow : 10 ≤ 10 ^ dropped := Nat.le_self_pow hne 10
    rcases h with ⟨hle, -, hlarge⟩ | ⟨hlarge, hle, -⟩
    · have := hlarge (Nat.pos_of_ne_zero hne)
      nlinarith
    · nlinarith
  subst hdropped
  rcases h with ⟨hle, hlt, -⟩ | ⟨hlarge, hle, -⟩ <;> omega

end Gathered

/-! ## The parts of a literal -/

theorem run?_cons (h : n.step b = .more n') : n.run? (b :: bs) = n'.run? bs := by
  rw [run?, h]

theorem run?_append (n : Numeral) (as bs : Bytes) :
    n.run? (as ++ bs) = (n.run? as).bind fun n => n.run? bs := by
  induction as generalizing n with
  | nil => rfl
  | cons b as ih =>
    simp only [List.cons_append, run?]
    split
    · exact ih _
    · rfl

/-- What has been read of a number without its exponent. -/
structure Scans (n : Numeral) (negative : Bool) (whole fraction : Bytes) : Prop where
  negative_eq : n.negative = negative
  exponentNegative_eq : n.exponentNegative = false
  exponent_eq : n.exponent = 0
  vanished_eq : n.vanished = false
  fits : n.significand < significandLimit
  gathered : ∃ dropped : ℕ, n.scale = dropped - fraction.length ∧ (n.full = true → 0 < dropped) ∧
    Gathered n.significand dropped (decimal (whole ++ fraction))

/-- What has been read of a number up to the point. -/
structure ScansInteger (n : Numeral) (negative : Bool) (whole : Bytes) : Prop extends
    n.Scans negative whole [] where
  exact : n.full = false → n.scale = 0 ∧ n.significand = decimal whole
  full : n.full = true → significandLimit ≤ decimal whole

theorem decimal_concat (ds : Bytes) (b : UInt8) :
    decimal (ds ++ [b]) = 10 * decimal ds + digitValue b := by
  rw [decimal_append]
  simp [decimal, Nat.mul_comm]

namespace Scans

variable {n n' : Numeral} {negative : Bool} {whole fraction ds : Bytes} {p : Phase} {b : UInt8}

/-- A digit of the integer. -/
theorem enter_integer (h : n.ScansInteger negative whole) (hb : isDigit b = true) (p : Phase) :
    ({ n with phase := p }.pushInteger (digitValue b)).ScansInteger negative (whole ++ [b]) := by
  have hd := digitValue_le hb
  obtain ⟨dropped, hscale, hfull, hgathered⟩ := h.gathered
  have hexact := h.exact
  have hlarge := h.full
  simp only [List.append_nil, List.length_nil, Nat.cast_zero, sub_zero] at hscale hgathered
  unfold pushInteger
  simp only
  split_ifs with hdrop
  · have hlimit : significandLimit ≤ decimal (whole ++ [b]) := by
      rw [decimal_concat]
      rcases Bool.eq_false_or_eq_true n.full with hn | hn
      · have := hlarge hn
        omega
      · rw [← (hexact hn).2]
        exact hdrop.resolve_left (by simp [hn])
    refine ⟨⟨h.negative_eq, h.exponentNegative_eq, h.exponent_eq, h.vanished_eq, h.fits,
      ⟨dropped + 1, by simp [hscale], by simp, ?_⟩⟩, by simp, fun _ => hlimit⟩
    rw [List.append_nil, decimal_concat]
    exact hgathered.drop hd (hdrop.imp_left hfull)
  · obtain ⟨hn, hfits⟩ := not_or.1 hdrop
    have hn' : n.full = false := by simpa using hn
    refine ⟨⟨h.negative_eq, h.exponentNegative_eq, h.exponent_eq, h.vanished_eq, not_le.1 hfits,
      ⟨dropped, by simp [hscale], by simp [hn'], ?_⟩⟩, fun _ => ?_, by simp [hn']⟩
    · rw [List.append_nil, decimal_concat]
      exact hgathered.push hd (not_le.1 hfits)
    · rw [decimal_concat, ← (hexact hn').2]
      exact ⟨(hexact hn').1, rfl⟩

theorem enter_fraction (h : n.Scans negative whole fraction) (hb : isDigit b = true) (p : Phase) :
    ({ n with phase := p }.pushFraction (digitValue b)).Scans negative whole
      (fraction ++ [b]) := by
  have hd := digitValue_le hb
  obtain ⟨dropped, hscale, hfull, hgathered⟩ := h.gathered
  unfold pushFraction
  simp only
  split_ifs with hdrop
  · refine ⟨h.negative_eq, h.exponentNegative_eq, h.exponent_eq, h.vanished_eq, h.fits,
      ⟨dropped + 1, by simp [hscale], by simp, ?_⟩⟩
    rw [← List.append_assoc, decimal_concat]
    exact hgathered.drop hd (hdrop.imp_left hfull)
  · obtain ⟨hn, hfits⟩ := not_or.1 hdrop
    have hn' : n.full = false := by simpa using hn
    refine ⟨h.negative_eq, h.exponentNegative_eq, h.exponent_eq, h.vanished_eq, not_le.1 hfits,
      ⟨dropped, by simp [hscale]; omega, by simp [hn'], ?_⟩⟩
    rw [← List.append_assoc, decimal_concat]
    exact hgathered.push hd (not_le.1 hfits)

/-- The digits of the integer after the first. -/
theorem run_integer (h : n.ScansInteger negative whole) (hphase : n.phase = .integer)
    (hds : ∀ b ∈ ds, isDigit b = true) :
    ∃ n', n.run? ds = some n' ∧ n'.ScansInteger negative (whole ++ ds) ∧
      n'.phase = .integer := by
  induction ds generalizing n whole with
  | nil => exact ⟨n, rfl, by rwa [List.append_nil], hphase⟩
  | cons b ds ih =>
    obtain ⟨hb, hds⟩ := List.forall_mem_cons.1 hds
    have hstep : n.step b = .more ({ n with phase := .integer }.pushInteger (digitValue b)) := by
      simp [step, hphase, Phase.step, hb, enter]
    obtain ⟨n', hrun, hscans, hphase'⟩ := ih (enter_integer h hb .integer)
      (phase_enter (n := n) (p := .integer) (b := b) rfl) hds
    exact ⟨n', (run?_cons hstep).trans hrun, by simpa using hscans, hphase'⟩

/-- The digits of the fraction after the point. -/
theorem run_fraction (h : n.Scans negative whole fraction)
    (hphase : n.phase = .fraction ∨ n.phase = .point ∧ ds ≠ [])
    (hds : ∀ b ∈ ds, isDigit b = true) :
    ∃ n', n.run? ds = some n' ∧ n'.Scans negative whole (fraction ++ ds) ∧
      n'.phase = .fraction := by
  induction ds generalizing n fraction with
  | nil => exact ⟨n, rfl, by rwa [List.append_nil], by simpa using hphase⟩
  | cons b ds ih =>
    obtain ⟨hb, hds⟩ := List.forall_mem_cons.1 hds
    have hstep : n.step b = .more ({ n with phase := .fraction }.pushFraction (digitValue b)) := by
      rcases hphase with hphase | ⟨hphase, -⟩ <;>
        simp [step, hphase, Phase.step, Phase.needDigit, hb, enter]
    obtain ⟨n', hrun, hscans, hphase'⟩ := ih (h.enter_fraction hb .fraction)
      (Or.inl (phase_enter (n := n) (p := .fraction) (b := b) rfl)) hds
    exact ⟨n', (run?_cons hstep).trans hrun, by simpa using hscans, hphase'⟩

end Scans

/-- What has been read of the exponent, if it stays in range or makes the number vanish. -/
structure Scales (n n' : Numeral) (negative : Bool) (ds : Bytes) : Prop where
  negative_eq : n'.negative = n.negative
  significand_eq : n'.significand = n.significand
  scale_eq : n'.scale = n.scale
  exponentNegative_eq : n'.exponentNegative = negative
  exponent : n'.vanished = false ∧ n'.exponent = decimal ds ∨
    n'.vanished = true ∧ exponentLimit ≤ decimal ds ∧ (n.significand = 0 ∨ negative = true)

namespace Scales

variable {n n' n'' : Numeral} {negative : Bool} {ds es : Bytes} {b : UInt8} {p : Phase}

theorem enter_exponent (h : n.Scales n' negative ds)
    (henter : n'.enter .exponent b = .more n'') : n.Scales n'' negative (ds ++ [b]) := by
  simp only [enter, pushExponent?] at henter
  have hlarge : exponentLimit ≤ decimal ds → exponentLimit ≤ decimal (ds ++ [b]) := by
    rw [decimal_concat]
    omega
  rcases h.exponent with ⟨hvanished, hexponent⟩ | ⟨hvanished, hlimit, hzero⟩
  · simp only [hvanished, Bool.false_eq_true, if_false] at henter
    split_ifs at henter with hlimit hzero
    · obtain rfl := Turn.more.inj henter
      refine ⟨h.negative_eq, h.significand_eq, h.scale_eq, h.exponentNegative_eq,
        Or.inr ⟨rfl, by rwa [decimal_concat, ← hexponent], ?_⟩⟩
      simpa [h.significand_eq, h.exponentNegative_eq] using hzero
    · obtain rfl := Turn.more.inj henter
      exact ⟨h.negative_eq, h.significand_eq, h.scale_eq, h.exponentNegative_eq,
        Or.inl ⟨rfl, by rw [decimal_concat, ← hexponent]⟩⟩
  · simp only [hvanished, if_true] at henter
    obtain rfl := Turn.more.inj henter
    exact ⟨h.negative_eq, h.significand_eq, h.scale_eq, h.exponentNegative_eq,
      Or.inr ⟨rfl, hlarge hlimit, hzero⟩⟩

/-- The digits of the exponent. -/
theorem of_run? (h : n.Scales n' negative ds)
    (hphase : n'.phase = .exponent ∨ (n'.phase = .mark ∨ n'.phase = .sign) ∧ es ≠ [])
    (hes : ∀ b ∈ es, isDigit b = true) (hrun : n'.run? es = some n'') :
    n.Scales n'' negative (ds ++ es) ∧ n''.phase = .exponent := by
  induction es generalizing n' ds with
  | nil =>
    obtain rfl := Option.some.inj hrun
    exact ⟨by rwa [List.append_nil], by simpa using hphase⟩
  | cons b es ih =>
    obtain ⟨hb, hes⟩ := List.forall_mem_cons.1 hes
    have hsign : ¬(b = 0x2B ∨ b = 0x2D) := by
      rintro (rfl | rfl) <;> cases hb
    have hstep : n'.step b = n'.enter .exponent b := by
      rcases hphase with hphase | ⟨hphase | hphase, -⟩ <;>
        simp [step, hphase, Phase.step, Phase.needDigit, hb, hsign]
    simp only [run?, hstep] at hrun
    split at hrun
    · next n₁ henter =>
      rw [List.append_cons]
      exact ih (h.enter_exponent henter) (Or.inl (phase_enter henter)) hes hrun
    · cases hrun

end Scales

/-- What is read of a literal. -/
structure Takes (n : Numeral) (l : Literal) : Prop where
  negative_eq : n.negative = l.negative
  isInteger_iff : (n.phase = .zero ∨ n.phase = .integer) ↔ l.IsInteger
  exact : l.IsInteger → n.full = false → n.significand = l.digits
  full : l.IsInteger → n.full = true → significandLimit ≤ l.digits
  fits : n.significand < significandLimit
  gathered : ∃ dropped : ℕ, n.scale = dropped - l.fraction.length ∧
    Gathered n.significand dropped l.digits
  exponent : n.vanished = false ∧
      n.finalExponent = n.scale + (l.exponent?.map Exponent.value).getD 0 ∨
    n.vanished = true ∧ (n.significand = 0 ∨
      (l.exponent?.map Exponent.value).getD 0 ≤ -exponentLimit)

variable {l : Literal}

/-- A number with nothing of it read but its sign. -/
def unread (negative : Bool) : Numeral := { phase := .minus, negative }

/-- The phase after the first digit. -/
def Phase.ofFirst (d : UInt8) : Phase := if d = 0x30 then .zero else .integer

theorem scans_unread (negative : Bool) : (unread negative).ScansInteger negative [] where
  negative_eq := rfl
  exponentNegative_eq := rfl
  exponent_eq := rfl
  vanished_eq := rfl
  fits := (by decide : 0 < significandLimit)
  gathered := ⟨0, rfl, by simp [unread], .refl 0⟩
  exact _ := ⟨rfl, rfl⟩
  full h := by cases h

/-- The number after its first digit. -/
def first (negative : Bool) (d : UInt8) : Numeral :=
  { unread negative with phase := .ofFirst d }.pushInteger (digitValue d)

theorem step_unread {d : UInt8} (negative : Bool) (hd : isDigit d = true) :
    (unread negative).step d = .more (first negative d) := by
  by_cases hzero : d = 0x30 <;>
    simp [first, unread, step, Phase.step, Phase.ofFirst, Phase.needDigit, enter, hd, hzero]

theorem start?_digit {d : UInt8} (hd : isDigit d = true) : start? d = some (first false d) := by
  have hminus : d ≠ 0x2D := by
    rintro rfl
    cases hd
  have hfits : digitValue d < significandLimit := lt_of_le_of_lt (digitValue_le hd) (by decide)
  by_cases hzero : d = 0x30
  · subst hzero
    rfl
  · simp [start?, Phase.start?, first, unread, Phase.ofFirst, pushInteger, hminus, hzero, hd,
      not_le.2 hfits]

theorem exists_scans_digits {d : UInt8} {ds : Bytes} (negative : Bool) (hd : isDigit d = true)
    (hds : ∀ b ∈ ds, isDigit b = true) (hzero : d = 0x30 → ds = []) :
    ∃ n, (first negative d).run? ds = some n ∧ n.ScansInteger negative (d :: ds) ∧
      (n.phase = .zero ∨ n.phase = .integer) := by
  have hscans : (first negative d).ScansInteger negative [d] :=
    Scans.enter_integer (scans_unread negative) hd (.ofFirst d)
  have hphase : (first negative d).phase = .ofFirst d := by
    unfold first pushInteger
    split <;> rfl
  by_cases h : d = 0x30
  · rw [hzero h]
    exact ⟨_, rfl, hscans, Or.inl (by rw [hphase, Phase.ofFirst, if_pos h])⟩
  · obtain ⟨n, hrun, hscans, hphase⟩ :=
      Scans.run_integer hscans (by rw [hphase, Phase.ofFirst, if_neg h]) hds
    exact ⟨n, hrun, hscans, Or.inr hphase⟩

/-- The sign and the integer of a literal. -/
theorem exists_scans_whole (l : Literal) (rest : Bytes) :
    ∃ n : Numeral, whole? (l.signBytes ++ (l.whole ++ rest)) =
        (n.run? rest).filter (fun n => n.phase.complete) ∧
      n.ScansInteger l.negative l.whole ∧ (n.phase = .zero ∨ n.phase = .integer) := by
  obtain ⟨d, ds, hwhole⟩ := List.exists_cons_of_ne_nil l.whole_ne_nil
  have hdigits := l.isDigit_whole
  have hzero := l.whole_eq
  rw [hwhole] at hdigits hzero ⊢
  obtain ⟨hd, hds⟩ := List.forall_mem_cons.1 hdigits
  obtain ⟨n, hrun, hscans, hphase⟩ := exists_scans_digits l.negative hd hds
    (by rintro rfl; simpa using hzero rfl)
  refine ⟨n, ?_, hscans, hphase⟩
  have hrest : (first l.negative d).run? (ds ++ rest) = n.run? rest := by
    rw [run?_append, hrun, Option.bind_some]
  unfold Literal.signBytes
  cases hn : l.negative with
  | false =>
    rw [hn] at hrest
    simp only [Bool.false_eq_true, if_false, List.nil_append, List.cons_append, whole?,
      start?_digit hd, Option.bind_some, hrest]
  | true =>
    rw [hn] at hrest
    have hstart : start? 0x2D = some (unread true) := rfl
    simp only [if_true, List.cons_append, List.nil_append, whole?, hstart, Option.bind_some,
      run?_cons (step_unread true hd), hrest]

/-- The fraction of a literal. -/
theorem exists_scans_fraction {n : Numeral} {negative : Bool} {whole : Bytes}
    (h : n.Scans negative whole []) (hphase : n.phase = .zero ∨ n.phase = .integer) (l : Literal) :
    ∃ n', n.run? l.fractionBytes = some n' ∧ n'.Scans negative whole l.fraction ∧
      (l.fraction = [] → n' = n) ∧ (l.fraction ≠ [] → n'.phase = .fraction) := by
  unfold Literal.fractionBytes
  by_cases hfraction : l.fraction = []
  · rw [if_pos hfraction, hfraction]
    exact ⟨n, rfl, h, fun _ => rfl, fun hne => absurd rfl hne⟩
  · rw [if_neg hfraction]
    have hstep : n.step 0x2E = .more { n with phase := .point, full := false } := by
      rcases hphase with hphase | hphase <;>
        simp [step, hphase, Phase.step, isDigit, Phase.afterInteger, enter]
    have hpoint :
        ({ n with phase := .point, full := false } : Numeral).Scans negative whole [] := by
      obtain ⟨dropped, hscale, -, hgathered⟩ := h.gathered
      exact ⟨h.negative_eq, h.exponentNegative_eq, h.exponent_eq, h.vanished_eq, h.fits,
        dropped, hscale, by simp, hgathered⟩
    obtain ⟨n', hrun, hscans, hphase'⟩ :=
      hpoint.run_fraction (Or.inr ⟨rfl, hfraction⟩) l.isDigit_fraction
    exact ⟨n', (run?_cons hstep).trans hrun, hscans, fun h => absurd h hfraction,
      fun _ => hphase'⟩

/-- The mark of an exponent and its sign. -/
theorem exists_scales {n : Numeral} {negative : Bool} {whole fraction : Bytes}
    (h : n.Scans negative whole fraction)
    (hphase : n.phase = .zero ∨ n.phase = .integer ∨ n.phase = .fraction) (e : Exponent) :
    ∃ n', n.run? e.bytes = n'.run? e.digits ∧ n.Scales n' (decide (e.sign = [0x2D])) [] ∧
      (n'.phase = .mark ∨ n'.phase = .sign) := by
  have hmark : n.step e.mark = .more { n with phase := .mark } := by
    rcases hphase with hphase | hphase | hphase <;> rcases e.mark_eq with hmark | hmark <;>
      simp [step, hphase, Phase.step, isDigit, Phase.afterInteger, enter, hmark]
  have hscales : ∀ (p : Phase) (b : Bool),
      n.Scales { n with phase := p, exponentNegative := b } b [] := fun p b =>
    ⟨rfl, rfl, rfl, rfl, Or.inl ⟨h.vanished_eq, h.exponent_eq⟩⟩
  have hsign : ∀ b : UInt8, b = 0x2B ∨ b = 0x2D → ({ n with phase := .mark } : Numeral).step b =
      .more { n with phase := .sign, exponentNegative := b == 0x2D } := by
    rintro b hb
    simp [step, Phase.step, hb, enter]
  rcases e.sign_eq with hs | hs | hs
  · refine ⟨{ n with phase := .mark }, ?_, ?_, Or.inl rfl⟩
    · rw [Exponent.bytes, hs, List.cons_append, List.nil_append, run?_cons hmark]
    · rw [hs]
      exact ⟨rfl, rfl, rfl, h.exponentNegative_eq, Or.inl ⟨h.vanished_eq, h.exponent_eq⟩⟩
  · refine ⟨{ n with phase := .sign, exponentNegative := false }, ?_, ?_, Or.inr rfl⟩
    · rw [Exponent.bytes, hs, List.cons_append, run?_cons hmark, List.singleton_append,
        run?_cons (hsign _ (Or.inl rfl))]
      rfl
    · rw [hs]
      exact hscales .sign false
  · refine ⟨{ n with phase := .sign, exponentNegative := true }, ?_, ?_, Or.inr rfl⟩
    · rw [Exponent.bytes, hs, List.cons_append, run?_cons hmark, List.singleton_append,
        run?_cons (hsign _ (Or.inr rfl))]
      rfl
    · rw [hs]
      exact hscales .sign true

/-- What has been read of a literal up to its exponent. -/
structure ScansDigits (n : Numeral) (l : Literal) : Prop extends
    n.Scans l.negative l.whole l.fraction where
  phase : n.phase = .zero ∨ n.phase = .integer ∨ n.phase = .fraction
  phase_iff : (n.phase = .zero ∨ n.phase = .integer) ↔ l.fraction = []
  exact : l.fraction = [] → n.full = false → n.significand = l.digits
  full : l.fraction = [] → n.full = true → significandLimit ≤ l.digits

theorem exists_scansDigits {n : Numeral} (h : whole? l.bytes = some n) :
    ∃ n' : Numeral, n'.ScansDigits l ∧ n'.run? l.exponentBytes = some n := by
  obtain ⟨n₁, hwhole, hscans₁, hphase₁⟩ :=
    exists_scans_whole l (l.fractionBytes ++ l.exponentBytes)
  obtain ⟨n₂, hrun₂, hscans₂, hsame, hphase₂⟩ :=
    exists_scans_fraction hscans₁.toScans hphase₁ l
  rw [Literal.bytes, hwhole, run?_append, hrun₂, Option.bind_some] at h
  refine ⟨n₂, ?_, (Option.filter_eq_some_iff.1 h).1⟩
  by_cases hfraction : l.fraction = []
  · obtain rfl := hsame hfraction
    have hdigits : l.digits = decimal l.whole := by
      rw [Literal.digits, hfraction, List.append_nil]
    exact ⟨hscans₂, hphase₁.imp_right Or.inl, iff_of_true hphase₁ hfraction,
      fun _ hfull => hdigits ▸ (hscans₁.exact hfull).2,
      fun _ hfull => hdigits ▸ hscans₁.full hfull⟩
  · have hphase := hphase₂ hfraction
    exact ⟨hscans₂, Or.inr (Or.inr hphase), iff_of_false (by simp [hphase]) hfraction,
      fun h => absurd h hfraction, fun h => absurd h hfraction⟩

theorem ScansDigits.takes {n : Numeral} (h : n.ScansDigits l) (he : l.exponent? = none) :
    n.Takes l := by
  have hinteger : l.IsInteger ↔ l.fraction = [] := ⟨fun hl => hl.1, fun hl => ⟨hl, he⟩⟩
  obtain ⟨dropped, hscale, -, hgathered⟩ := h.gathered
  refine ⟨h.negative_eq, h.phase_iff.trans hinteger.symm, fun hl => h.exact hl.1,
    fun hl => h.full hl.1, h.fits, ⟨dropped, hscale, hgathered⟩, Or.inl ⟨h.vanished_eq, ?_⟩⟩
  simp [finalExponent, h.exponentNegative_eq, h.exponent_eq, he]

theorem ScansDigits.takes_of_run? {n n' : Numeral} {e : Exponent} (h : n.ScansDigits l)
    (he : l.exponent? = some e) (hrun : n.run? e.bytes = some n') : n'.Takes l := by
  obtain ⟨n'', hmark, hscales, hphase⟩ := exists_scales h.toScans h.phase e
  rw [hmark] at hrun
  obtain ⟨hscales, hphase'⟩ :=
    hscales.of_run? (Or.inr ⟨hphase, e.digits_ne_nil⟩) e.isDigit_digits hrun
  rw [List.nil_append] at hscales
  have hnot : ¬l.IsInteger := fun hl => by cases he.symm.trans hl.2
  obtain ⟨dropped, hscale, -, hgathered⟩ := h.gathered
  refine ⟨hscales.negative_eq.trans h.negative_eq, iff_of_false (by simp [hphase']) hnot,
    fun hl => absurd hl hnot, fun hl => absurd hl hnot, hscales.significand_eq.symm ▸ h.fits,
    ⟨dropped, hscales.scale_eq.trans hscale, hscales.significand_eq.symm ▸ hgathered⟩, ?_⟩
  rw [he, Option.map_some, Option.getD_some]
  rcases hscales.exponent with ⟨hvanished, hexponent⟩ | ⟨hvanished, hlimit, hzero⟩
  · refine Or.inl ⟨hvanished, ?_⟩
    rw [finalExponent, hscales.exponentNegative_eq, hexponent, Exponent.value]
    by_cases hsign : e.sign = [0x2D] <;> simp [hsign]
    rfl
  · refine Or.inr ⟨hvanished, hzero.imp (fun h => hscales.significand_eq.trans h) fun h => ?_⟩
    have hsign : e.sign = [0x2D] := by simpa using h
    rw [Exponent.value, if_pos hsign]
    exact neg_le_neg (by exact_mod_cast hlimit)

/-- What is read of a literal is what was read of its digits and of its exponent. -/
theorem takes_of_whole? {n : Numeral} (h : whole? l.bytes = some n) : n.Takes l := by
  obtain ⟨n', hscans, hrun⟩ := exists_scansDigits h
  unfold Literal.exponentBytes at hrun
  cases he : l.exponent? with
  | none =>
    rw [he] at hrun
    obtain rfl := Option.some.inj hrun
    exact hscans.takes he
  | some e =>
    rw [he, Option.map_some, Option.getD_some] at hrun
    exact hscans.takes_of_run? he hrun

end Numeral

/-- What is kept of a number. -/
def Literal.Keeps (l : Literal) (x : Number) : Prop := Numeral.read? l.bytes = some x

end FramedRelay.Json
