import FramedRelay.Http.Headers
import FramedRelay.Proofs.Json.Literal
import FramedRelay.Proofs.Text.Decimals

/-!
# The length that a request announces

Of all headers only the first with the name `content-length` counts, in whatever case the name is
written. Its value is a length if it is printable ASCII and, between spaces and tabs, an optional
plus sign and one or more digits (`Http.IsLength`). A length below `2 ^ 64` is accepted up to the
limit and is too large beyond it, and a value that is none is invalid; there is no other case, and
no overflow (`contentLength_eq`).
-/

namespace FramedRelay.Http

open Json (decimal isDigit)

/-! ## Values -/

/-- A value is a length: between spaces and tabs there are an optional plus sign and the digits of
a number. -/
structure IsLength (value : Bytes) (n : ℕ) : Prop where
  isVisible : ∀ b ∈ value, b = 0x09 ∨ 0x20 ≤ b ∧ b ≤ 0x7E
  exists_digits : ∃ before sign digits after : Bytes,
    value = before ++ (sign ++ digits) ++ after ∧
    (∀ b ∈ before ++ after, b = 0x20 ∨ b = 0x09) ∧ (sign = [] ∨ sign = [0x2B]) ∧
    digits ≠ [] ∧ (∀ b ∈ digits, isDigit b = true) ∧ decimal digits = n

/-- The character of a byte. -/
def charOf (b : UInt8) : Char := Char.ofNat b.toNat

section Characters

variable {b : UInt8}

theorem toNat_charOf (b : UInt8) : (charOf b).toNat = b.toNat := by
  have hb := b.toNat_lt
  rw [charOf, Char.ofNat, dif_pos (Or.inl (by omega))]
  rfl

theorem isVisible_iff : isVisible b = true ↔ b = 0x09 ∨ 0x20 ≤ b ∧ b ≤ 0x7E := by
  simp [isVisible]

theorem isBlankChar_charOf (hb : isVisible b = true) :
    isBlankChar (charOf b) = true ↔ b = 0x20 ∨ b = 0x09 := by
  have h := isVisible_iff.1 hb
  simp only [isBlankChar, toNat_charOf, Bool.or_eq_true, Bool.and_eq_true, decide_eq_true_eq,
    beq_iff_eq, ← UInt8.toNat_inj, UInt8.le_iff_toNat_le] at h ⊢
  simp at h ⊢
  omega

theorem isDigit_charOf (b : UInt8) : (charOf b).isDigit = isDigit b := by
  rw [Bool.eq_iff_iff]
  simp only [Char.isDigit, isDigit, Bool.and_eq_true, decide_eq_true_eq, UInt8.le_iff_toNat_le,
    ge_iff_le, UInt32.le_iff_toNat_le]
  rw [show (charOf b).val.toNat = b.toNat from toNat_charOf b]
  rfl

theorem charOf_eq_plus : charOf b = '+' ↔ b = 0x2B := by
  constructor
  · intro h
    have := congrArg Char.toNat h
    rw [toNat_charOf] at this
    exact UInt8.toNat_inj.1 this
  · rintro rfl
    rfl

theorem ofDigitChars_map_charOf (ds : Bytes) :
    Nat.ofDigitChars 10 (ds.map charOf) 0 = decimal ds := by
  simp [Nat.ofDigitChars, decimal, List.foldl_map, toNat_charOf, Json.digitValue]

end Characters

variable {value : Bytes} {n : ℕ}

theorem isLength_of_read (hvisible : ∀ b ∈ value, isVisible b = true)
    (h : Decimal.read UInt64.size (trimBlanks (value.map charOf)) = .ok n) :
    IsLength value n ∧ n < UInt64.size := by
  obtain ⟨before, after, hsplit, hblank⟩ := exists_eq_append_trimBlanks (value.map charOf)
  obtain ⟨⟨ds, hsign, hne, hdigit, rfl⟩, hlt⟩ := Decimal.read_eq_ok_iff.1 h
  generalize trimBlanks (value.map charOf) = core at hsplit hsign
  obtain ⟨front, after, rfl, hfront, rfl⟩ := List.map_eq_append_iff.1 hsplit
  obtain ⟨before, core, rfl, rfl, rfl⟩ := List.map_eq_append_iff.1 hfront
  refine ⟨⟨fun b hb => isVisible_iff.1 (hvisible b hb), ?_⟩, hlt⟩
  have hblank' : ∀ b ∈ before ++ after, b = 0x20 ∨ b = 0x09 := by
    intro b hb
    rw [← List.map_append] at hblank
    refine (isBlankChar_charOf (hvisible b ?_)).1 (hblank _ (List.mem_map_of_mem hb))
    rcases List.mem_append.1 hb with hb | hb
    · exact List.mem_append_left _ (List.mem_append_left _ hb)
    · exact List.mem_append_right _ hb
  rcases hsign with rfl | hplus
  · exact ⟨before, [], core, after, rfl, hblank', Or.inl rfl, by simpa using hne,
      by simpa [isDigit_charOf] using hdigit, (ofDigitChars_map_charOf core).symm⟩
  · obtain ⟨b, digits, rfl, hb, rfl⟩ := List.map_eq_cons_iff.1 hplus
    obtain rfl := charOf_eq_plus.1 hb
    exact ⟨before, [0x2B], digits, after, rfl, hblank', Or.inr rfl, by simpa using hne,
      by simpa [isDigit_charOf] using hdigit, (ofDigitChars_map_charOf digits).symm⟩

theorem read_of_isLength (h : IsLength value n) (hn : n < UInt64.size) :
    Decimal.read UInt64.size (trimBlanks (value.map charOf)) = .ok n := by
  have hvisible := fun b hb => isVisible_iff.2 (h.isVisible b hb)
  obtain ⟨before, sign, digits, after, rfl, hblank, hsign, hne, hdigit, rfl⟩ := h.exists_digits
  have hends : ∀ b ∈ before ++ after, isBlankChar (charOf b) = true := by
    intro b hb
    refine (isBlankChar_charOf (hvisible b ?_)).2 (hblank b hb)
    rcases List.mem_append.1 hb with hb | hb
    · exact List.mem_append_left _ (List.mem_append_left _ hb)
    · exact List.mem_append_right _ hb
  have hcore : ∀ b ∈ sign ++ digits, isBlankChar (charOf b) = false := by
    intro b hb
    have hother : ¬(b = 0x20 ∨ b = 0x09) := by
      rcases List.mem_append.1 hb with hb | hb
      · rcases hsign with rfl | rfl
        · cases hb
        · obtain rfl := List.mem_singleton.1 hb
          decide
      · rintro (rfl | rfl) <;> exact absurd (hdigit _ hb) (by decide)
    have hb' := hvisible b (List.mem_append_left _ (List.mem_append_right _ hb))
    rwa [← Bool.not_eq_true, isBlankChar_charOf hb']
  rw [List.map_append, List.map_append, trimBlanks_append
    (List.forall_mem_map.2 fun b hb => hends b (List.mem_append_left _ hb))
    (List.forall_mem_map.2 hcore)
    (List.forall_mem_map.2 fun b hb => hends b (List.mem_append_right _ hb)),
    Decimal.read_eq_ok_iff]
  refine ⟨⟨digits.map charOf, ?_, by simpa using hne, by simpa [isDigit_charOf] using hdigit,
    ofDigitChars_map_charOf digits⟩, hn⟩
  rcases hsign with rfl | rfl
  · exact Or.inl rfl
  · exact Or.inr rfl

/-- The values in which a length is found are the lengths below `2 ^ 64`. -/
theorem lengthOf?_eq_some_iff :
    lengthOf? value = some n ↔ IsLength value n ∧ n < UInt64.size := by
  have hoption (x : Except Decimal.Fault ℕ) : x.toOption = some n ↔ x = .ok n := by
    cases x <;> simp [Except.toOption]
  by_cases hvisible : value.all isVisible = true
  · have hall := List.all_eq_true.1 hvisible
    rw [lengthOf?, visible?, if_pos hvisible, Option.bind_some, hoption]
    exact ⟨isLength_of_read hall, fun h => read_of_isLength h.1 h.2⟩
  · rw [lengthOf?, visible?, if_neg hvisible, Option.bind_none]
    refine iff_of_false (by simp) fun h => hvisible (List.all_eq_true.2 fun b hb => ?_)
    exact isVisible_iff.2 (h.1.isVisible b hb)

/-! ## Headers -/

/-- Names are compared without regard to the case of ASCII letters. -/
theorem sameName_contentLength (name : String) :
    sameName name "content-length" = true ↔ name.toLower = "content-length" := by
  have hlower : name.toLower.toList = name.toList.map Char.toLower := String.toList_map
  rw [sameName, beq_iff_eq, ← String.toList_inj, hlower]
  rfl

/-- Some headers, none of which announces a length. -/
def Silent (hs : Headers) : Prop := ∀ h ∈ hs, h.1.toLower ≠ "content-length"

theorem Silent.first?_eq_none {hs : Headers} (h : Silent hs) :
    hs.first? "content-length" = none := by
  rw [Headers.first?, Option.map_eq_none_iff, List.find?_eq_none]
  exact fun header hmem hname => h header hmem ((sameName_contentLength _).1 hname)

/-- The first header of the name is the one that counts, whatever comes after it. -/
theorem Silent.first?_append {before : Headers} (h : Silent before) {name : String}
    (hname : name.toLower = "content-length") (value : Bytes) (after : Headers) :
    Headers.first? (before ++ (name, value) :: after) "content-length" = some value := by
  have hnone := Option.map_eq_none_iff.1 h.first?_eq_none
  have hfirst := (sameName_contentLength name).2 hname
  simp [Headers.first?, List.find?_append, hnone, hfirst]

/-- What comes of the length that a request announces. Without a header of the name it is missing.
With one, the first decides, whatever the others say: a length below `2 ^ 64` is accepted up to the
limit and too large beyond it, and any other value is invalid. -/
theorem contentLength_eq (limit : ℕ) :
    (∀ hs, Silent hs →
      contentLength hs limit = .error (.malformedInput "missing Content-Length header")) ∧
    ∀ before name value after, Silent before → name.toLower = "content-length" →
      (∀ n, IsLength value n → n < 2 ^ 64 →
        contentLength (before ++ (name, value) :: after) limit =
          if n ≤ limit then .ok n else .error (.requestTooLarge n limit)) ∧
      ((∀ n, IsLength value n → 2 ^ 64 ≤ n) →
        contentLength (before ++ (name, value) :: after) limit =
          .error (.malformedInput "invalid Content-Length header")) := by
  refine ⟨fun hs h => ?_, fun before name value after h hname =>
    ⟨fun n hn hlt => ?_, fun hno => ?_⟩⟩
  · rw [contentLength, h.first?_eq_none]
  · rw [contentLength, h.first?_append hname]
    simp only [lengthOf?_eq_some_iff.2 ⟨hn, hlt⟩]
    rcases Nat.lt_or_ge limit n with hlimit | hlimit
    · rw [if_pos hlimit, if_neg (Nat.not_le.2 hlimit)]
    · rw [if_neg (Nat.not_lt.2 hlimit), if_pos hlimit]
  · have hnone : lengthOf? value = none := by
      rcases hvalue : lengthOf? value with _ | n
      · rfl
      · obtain ⟨hn, hlt⟩ := lengthOf?_eq_some_iff.1 hvalue
        exact absurd hlt (Nat.not_lt.2 (hno n hn))
    rw [contentLength, h.first?_append hname]
    simp only [hnone]

/-- The value is ` +007` and a tab, and a second header does not count. -/
example : contentLength [("CONTENT-length", [0x20, 0x2B, 0x30, 0x30, 0x37, 0x09]),
    ("content-length", [0x38])] 7 = .ok 7 := by
  decide

end FramedRelay.Http
