import FramedRelay.Address.Numerals
import Mathlib.Data.List.Basic

/-!
# Reading printed numbers

The digits of a printed number are read as that number, and reading stops where they do, if what
follows is no digit (`Stops`). This holds whether the number is limited by the count of its digits
(`short?_toDigits`) or by its value (`number?_toDigits`).
-/

namespace FramedRelay.Address

variable {base n limit width : ℕ} {c : Char} {cs rest : List Char}

/-! ## Printed digits -/

theorem digit?_eq_filter (hle : base ≤ 16) (c : Char) :
    digit? base c = (digit? 16 c).filter (· < base) := by
  have hsame : (fun v => decide (v < base)) = fun v => decide (v < 16) && decide (v < base) := by
    funext v
    by_cases hv : v < base
    · simp [hv, Nat.lt_of_lt_of_le hv hle]
    · simp [hv]
  simp only [digit?, Option.filter_filter]
  rw [← hsame]

theorem digit?_digitChar {d : ℕ} (hd : d < base) (hle : base ≤ 16) :
    digit? base d.digitChar = some d := by
  have hall : ∀ d < 16, digit? 16 d.digitChar = some d := by decide
  rw [digit?_eq_filter hle, hall d (Nat.lt_of_lt_of_le hd hle)]
  simp [hd]

theorem exists_digitChar_of_mem_toDigits (hbase : 1 < base) (h : c ∈ Nat.toDigits base n) :
    ∃ d < base, c = d.digitChar := by
  induction n using Nat.strongRecOn with
  | ind n ih =>
    rw [Nat.toDigits_eq_if hbase] at h
    split at h
    · next hn => exact ⟨n, hn, List.mem_singleton.1 h⟩
    · next hn =>
      rcases List.mem_append.1 h with h | h
      · exact ih (n / base) (Nat.div_lt_self (by omega) hbase) h
      · exact ⟨n % base, Nat.mod_lt n (by omega), List.mem_singleton.1 h⟩

theorem point_notMem_toDigits (hbase : 1 < base) (hle : base ≤ 16) :
    '.' ∉ Nat.toDigits base n := by
  intro h
  have hdigit : ∀ d < 16, '.' ≠ Nat.digitChar d := by decide
  obtain ⟨d, hd, heq⟩ := exists_digitChar_of_mem_toDigits hbase h
  exact hdigit d (Nat.lt_of_lt_of_le hd hle) heq

/-- The characters of a printed number have the values that denote it. -/
theorem ofDigits_toDigits (hbase : 1 < base) (hle : base ≤ 16) (n : ℕ) :
    ofDigits base ((Nat.toDigits base n).filterMap (digit? base)) = n := by
  induction n using Nat.strongRecOn with
  | ind n ih =>
    rw [Nat.toDigits_eq_if hbase]
    split
    · next hn => simp [digit?_digitChar hn hle, ofDigits]
    · next hn =>
      have hhigh := ih (n / base) (Nat.div_lt_self (by omega) hbase)
      have hlow := digit?_digitChar (Nat.mod_lt n (by omega : base > 0)) hle
      rw [ofDigits] at hhigh ⊢
      simp only [List.filterMap_append, List.filterMap_cons, hlow, List.filterMap_nil,
        List.foldl_append, List.foldl_cons, List.foldl_nil, hhigh]
      exact Nat.div_add_mod n base

theorem filterMap_toDigits_ne_nil (hbase : 1 < base) (hle : base ≤ 16) (n : ℕ) :
    (Nat.toDigits base n).filterMap (digit? base) ≠ [] := by
  obtain ⟨c, cs, h⟩ := List.exists_cons_of_ne_nil (Nat.toDigits_ne_nil (n := n) (b := base))
  obtain ⟨d, hd, rfl⟩ := exists_digitChar_of_mem_toDigits hbase (h ▸ List.mem_cons_self)
  rw [h, List.filterMap_cons, digit?_digitChar hd hle]
  exact List.cons_ne_nil _ _

/-! ## Where the digits end -/

/-- A text does not start with a digit. -/
def Stops (base : ℕ) (rest : List Char) : Prop := ∀ c ∈ rest.head?, digit? base c = none

theorem stops_nil : Stops base [] := by simp [Stops]

theorem stops_cons (h : digit? base c = none) (cs : List Char) : Stops base (c :: cs) := by
  simpa [Stops] using h

/-- Without a digit of a base at the front there is none of a lower base. -/
theorem Stops.mono {low : ℕ} (h : Stops base rest) (hlow : low ≤ base) (hle : base ≤ 16) :
    Stops low rest := by
  intro c hc
  have hnone := h c hc
  rw [digit?_eq_filter hle, Option.filter_eq_none_iff] at hnone
  rw [digit?_eq_filter (Nat.le_trans hlow hle), Option.filter_eq_none_iff]
  intro v hv
  have := hnone v hv
  simp only [decide_eq_true_eq] at this ⊢
  omega

theorem digits_of_stops (h : Stops base rest) : digits base rest = ([], rest) := by
  cases rest with
  | nil => rfl
  | cons c cs => simp [digits, h c rfl]

theorem digits_append (hcs : ∀ c ∈ cs, (digit? base c).isSome) (hrest : Stops base rest) :
    digits base (cs ++ rest) = (cs.filterMap (digit? base), rest) := by
  induction cs with
  | nil => exact digits_of_stops hrest
  | cons c cs ih =>
    obtain ⟨d, hd⟩ := Option.isSome_iff_exists.1 (hcs c List.mem_cons_self)
    have hcs' := ih fun c hc => hcs c (List.mem_cons_of_mem _ hc)
    simp [digits, hd, hcs']

/-- What is left after the digits is the end of the text. -/
theorem digits_snd_suffix (base : ℕ) (cs : List Char) : (digits base cs).2 <:+ cs := by
  induction cs with
  | nil => exact List.suffix_refl _
  | cons c cs ih =>
    rw [digits]
    split
    · exact ih.trans (List.suffix_cons c cs)
    · exact List.suffix_refl _

theorem short?_suffix (h : short? base width cs = some (n, rest)) : rest <:+ cs := by
  have hsuffix := digits_snd_suffix base cs
  simp only [short?] at h
  split at h
  · cases h
  · obtain ⟨-, rfl⟩ := Prod.mk.inj (Option.some.inj h)
    exact hsuffix

/-! ## Printed numbers -/

section Numbers

variable (hbase : 1 < base) (hle : base ≤ 16) (hrest : Stops base rest)

include hbase hle hrest

theorem digits_toDigits (n : ℕ) : digits base (Nat.toDigits base n ++ rest) =
    ((Nat.toDigits base n).filterMap (digit? base), rest) := by
  refine digits_append (fun c hc => ?_) hrest
  obtain ⟨d, hd, rfl⟩ := exists_digitChar_of_mem_toDigits hbase hc
  rw [digit?_digitChar hd hle]
  rfl

/-- A printed number of few enough digits is read as it was printed. -/
theorem short?_toDigits (hwidth : (Nat.toDigits base n).length ≤ width) :
    short? base width (Nat.toDigits base n ++ rest) = some (n, rest) := by
  have hlength := Nat.le_trans (List.length_filterMap_le (digit? base) _) hwidth
  have hsome := filterMap_toDigits_ne_nil hbase hle n
  simp only [short?, digits_toDigits hbase hle hrest, ofDigits_toDigits hbase hle,
    List.isEmpty_iff, hsome, Nat.not_lt.2 hlength, or_self, if_false]

/-- A printed number below the limit is read as it was printed. -/
theorem number?_toDigits (hlimit : n < limit) :
    number? base limit (Nat.toDigits base n ++ rest) = some (n, rest) := by
  have hsome := filterMap_toDigits_ne_nil hbase hle n
  simp only [number?, digits_toDigits hbase hle hrest, ofDigits_toDigits hbase hle,
    List.isEmpty_iff, hsome, Nat.not_le.2 hlimit, or_self, if_false]

end Numbers

end FramedRelay.Address
