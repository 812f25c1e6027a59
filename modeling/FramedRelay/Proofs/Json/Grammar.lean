import FramedRelay.Json.Read
import FramedRelay.Proofs.Json.Literal

/-!
# The grammar of JSON texts

`Spells S p bs rest` says that `bs` starts with a spelling of the phrase `p` and goes on with
`rest`; a phrase is a value with blanks before it, or what may come at some place inside an array or
an object. The relation `S` says which strings the bytes between two quotes denote. `Denotes bs t`
says that `bs` is a JSON text of the value `t`, whose strings are Unicode texts (`Quotes`) and whose
numbers are the literals as they are written. The members of an object stand in the order of the
text, with all that have one key.

A text denotes one value at most (`Denotes.unique`).
-/

namespace FramedRelay.Json

/-! ## Strings -/

/-- The letters of the escapes of one letter, with the bytes that they stand for. -/
def escapeLetters : List (UInt8 × UInt8) :=
  [(0x22, 0x22), (0x5C, 0x5C), (0x2F, 0x2F), (0x62, 0x08), (0x66, 0x0C), (0x6E, 0x0A),
    (0x72, 0x0D), (0x74, 0x09)]

/-- The number that hexadecimal digits denote. -/
def hexadecimal (ds : Bytes) : ℕ :=
  ds.foldl (fun n b => 16 * n + hexValue b) 0

/-- Four hexadecimal digits that denote a code unit. -/
structure IsUnit (ds : Bytes) (unit : ℕ) : Prop where
  length_eq : ds.length = 4
  isHexDigit : ∀ b ∈ ds, isHexDigit b = true
  hexadecimal_eq : hexadecimal ds = unit

/-- The first code unit of a surrogate pair. -/
def IsLead (unit : ℕ) : Prop := 0xD800 ≤ unit ∧ unit ≤ 0xDBFF

/-- The second code unit of a surrogate pair. -/
def IsTrail (unit : ℕ) : Prop := 0xDC00 ≤ unit ∧ unit ≤ 0xDFFF

/-- The character of a surrogate pair. -/
def pairCode (lead trail : ℕ) : ℕ := 0x10000 + (lead - 0xD800) * 0x400 + (trail - 0xDC00)

/-- The content of a string literal stands for bytes: an escape for those of its character, all
else for itself. -/
inductive Unescapes : Bytes → Bytes → Prop
  | nil : Unescapes [] []
  | byte {b : UInt8} {bs out : Bytes} (hcontrol : 0x20 ≤ b) (hquote : b ≠ 0x22)
      (hbackslash : b ≠ 0x5C) (h : Unescapes bs out) : Unescapes (b :: bs) (b :: out)
  | letter {b c : UInt8} {bs out : Bytes} (hletter : (b, c) ∈ escapeLetters)
      (h : Unescapes bs out) : Unescapes (0x5C :: b :: bs) (c :: out)
  | unit {ds bs out : Bytes} {u : ℕ} (hds : IsUnit ds u) (hlead : ¬ IsLead u)
      (htrail : ¬ IsTrail u) (h : Unescapes bs out) :
      Unescapes (0x5C :: 0x75 :: (ds ++ bs)) (String.utf8EncodeChar (Char.ofNat u) ++ out)
  | pair {ds es bs out : Bytes} {u v : ℕ} (hds : IsUnit ds u) (hes : IsUnit es v) (hlead : IsLead u)
      (htrail : IsTrail v) (h : Unescapes bs out) :
      Unescapes (0x5C :: 0x75 :: (ds ++ 0x5C :: 0x75 :: (es ++ bs)))
        (String.utf8EncodeChar (Char.ofNat (pairCode u v)) ++ out)

/-- The bytes between two quotes denote a text. -/
def Quotes (content : Bytes) (s : String) : Prop := Unescapes content (Utf8.encode s)

/-! ## Phrases -/

/-- The values that are written as words. -/
def words : List (Bytes × Value Literal) :=
  [([0x6E, 0x75, 0x6C, 0x6C], .null), ([0x74, 0x72, 0x75, 0x65], .bool true),
    ([0x66, 0x61, 0x6C, 0x73, 0x65], .bool false)]

/-- What may come at a place in a text. -/
inductive Phrase (ν : Type)
  | value (t : Value ν)
  /-- What follows an opening bracket. -/
  | items (ts : List (Value ν))
  /-- What follows an item. -/
  | moreItems (ts : List (Value ν))
  /-- What follows an opening brace. -/
  | members (ms : Members ν)
  /-- What follows a member. -/
  | moreMembers (ms : Members ν)
  | member (key : String) (t : Value ν)
  /-- What follows a key. -/
  | colon (t : Value ν)

section

variable (S : Bytes → String → Prop)

/-- The bytes start with a spelling of a phrase, and then the rest comes. -/
inductive Spells : Phrase Literal → Bytes → Bytes → Prop
  | space {p : Phrase Literal} {b : UInt8} {bs rest : Bytes} (hb : isSpace b = true)
      (h : Spells p bs rest) : Spells p (b :: bs) rest
  | word {w : Bytes} {t : Value Literal} (hw : (w, t) ∈ words) (rest : Bytes) :
      Spells (.value t) (w ++ rest) rest
  | number (l : Literal) (rest : Bytes) : Spells (.value (.number l)) (l.bytes ++ rest) rest
  | string {content : Bytes} {s : String} (h : S content s) (rest : Bytes) :
      Spells (.value (.string s)) (0x22 :: (content ++ 0x22 :: rest)) rest
  | array {ts : List (Value Literal)} {bs rest : Bytes} (h : Spells (.items ts) bs rest) :
      Spells (.value (.array ts)) (0x5B :: bs) rest
  | object {ms : Members Literal} {bs rest : Bytes} (h : Spells (.members ms) bs rest) :
      Spells (.value (.object ms)) (0x7B :: bs) rest
  | noItems (rest : Bytes) : Spells (.items []) (0x5D :: rest) rest
  | firstItem {t : Value Literal} {ts : List (Value Literal)} {b : UInt8} {bs mid rest : Bytes}
      (hb : isSpace b = false) (h : Spells (.value t) (b :: bs) mid)
      (hs : Spells (.moreItems ts) mid rest) : Spells (.items (t :: ts)) (b :: bs) rest
  | endItems (rest : Bytes) : Spells (.moreItems []) (0x5D :: rest) rest
  | nextItem {t : Value Literal} {ts : List (Value Literal)} {bs mid rest : Bytes}
      (h : Spells (.value t) bs mid) (hs : Spells (.moreItems ts) mid rest) :
      Spells (.moreItems (t :: ts)) (0x2C :: bs) rest
  | noMembers (rest : Bytes) : Spells (.members []) (0x7D :: rest) rest
  | firstMember {key : String} {t : Value Literal} {ms : Members Literal} {b : UInt8}
      {bs mid rest : Bytes} (hb : isSpace b = false) (h : Spells (.member key t) (b :: bs) mid)
      (hs : Spells (.moreMembers ms) mid rest) : Spells (.members ((key, t) :: ms)) (b :: bs) rest
  | endMembers (rest : Bytes) : Spells (.moreMembers []) (0x7D :: rest) rest
  | nextMember {key : String} {t : Value Literal} {ms : Members Literal} {bs mid rest : Bytes}
      (h : Spells (.member key t) bs mid) (hs : Spells (.moreMembers ms) mid rest) :
      Spells (.moreMembers ((key, t) :: ms)) (0x2C :: bs) rest
  | member {key : String} {t : Value Literal} {content bs rest : Bytes} (hkey : S content key)
      (h : Spells (.colon t) bs rest) :
      Spells (.member key t) (0x22 :: (content ++ 0x22 :: bs)) rest
  | colon {t : Value Literal} {bs rest : Bytes} (h : Spells (.value t) bs rest) :
      Spells (.colon t) (0x3A :: bs) rest

end

/-- The bytes are a JSON text of a value: blanks may stand on both sides of it. -/
def Denotes (bs : Bytes) (t : Value Literal) : Prop :=
  ∃ rest, Spells Quotes (.value t) bs rest ∧ ∀ b ∈ rest, isSpace b = true

/-! ## Unambiguity -/

theorem escapeLetters_unique : ∀ a ∈ escapeLetters, ∀ b ∈ escapeLetters, a.1 = b.1 → a = b := by
  simp [escapeLetters]

theorem not_mem_escapeLetters (c : UInt8) : (0x75, c) ∉ escapeLetters := by
  simp [escapeLetters]

theorem mem_escapeLetters {b : UInt8} (h : isEscapeLetter b = true) :
    (b, unescapeLetter b) ∈ escapeLetters := by
  simp only [isEscapeLetter, Bool.or_eq_true, beq_iff_eq] at h
  rcases h with ((((((rfl | rfl) | rfl) | rfl) | rfl) | rfl) | rfl) | rfl <;> decide

/-- The four digits of a code unit are told apart from what follows by their number. -/
theorem IsUnit.unique {ds ds' bs bs' : Bytes} {u u' : ℕ} (h : IsUnit ds u) (h' : IsUnit ds' u')
    (heq : ds ++ bs = ds' ++ bs') : u = u' ∧ bs = bs' := by
  obtain ⟨rfl, hbs⟩ := List.append_inj heq (h.length_eq.trans h'.length_eq.symm)
  exact ⟨h.hexadecimal_eq.symm.trans h'.hexadecimal_eq, hbs⟩

namespace Unescapes

variable {as as' out out' rest rest' : Bytes}

/-- Content that ends at its closing quote can be read in one way. -/
theorem unique (h : Unescapes as out) (h' : Unescapes as' out')
    (heq : as ++ 0x22 :: rest = as' ++ 0x22 :: rest') : out = out' ∧ rest = rest' := by
  induction h generalizing as' out' with
  | nil =>
    cases h' with
    | nil => simpa using heq
    | byte => simp_all
    | letter => simp at heq
    | unit => simp at heq
    | pair => simp at heq
  | byte hcontrol hquote hbackslash h ih =>
    cases h' with
    | nil => simp_all
    | byte hcontrol' hquote' hbackslash' h' =>
      simp only [List.cons_append, List.cons.injEq] at heq
      obtain ⟨rfl, heq⟩ := heq
      obtain ⟨rfl, hrest⟩ := ih h' heq
      exact ⟨rfl, hrest⟩
    | letter => simp_all
    | unit => simp_all
    | pair => simp_all
  | letter hletter h ih =>
    cases h' with
    | nil => simp at heq
    | byte => simp_all
    | letter hletter' h' =>
      simp only [List.cons_append, List.cons.injEq, true_and] at heq
      obtain ⟨rfl, heq⟩ := heq
      obtain ⟨-, rfl⟩ := Prod.mk.inj (escapeLetters_unique _ hletter _ hletter' rfl)
      obtain ⟨rfl, hrest⟩ := ih h' heq
      exact ⟨rfl, hrest⟩
    | unit =>
      simp only [List.cons_append, List.cons.injEq, true_and] at heq
      exact absurd hletter (heq.1 ▸ not_mem_escapeLetters _)
    | pair =>
      simp only [List.cons_append, List.cons.injEq, true_and] at heq
      exact absurd hletter (heq.1 ▸ not_mem_escapeLetters _)
  | unit hds hlead htrail h ih =>
    cases h' with
    | nil => simp at heq
    | byte => simp_all
    | letter hletter' =>
      simp only [List.cons_append, List.cons.injEq, true_and] at heq
      exact absurd hletter' (heq.1 ▸ not_mem_escapeLetters _)
    | unit hds' hlead' htrail' h' =>
      simp only [List.cons_append, List.append_assoc, List.cons.injEq, true_and] at heq
      obtain ⟨rfl, heq⟩ := hds.unique hds' heq
      obtain ⟨rfl, hrest⟩ := ih h' heq
      exact ⟨rfl, hrest⟩
    | pair hds' hes' hlead' htrail' h' =>
      simp only [List.cons_append, List.append_assoc, List.cons.injEq, true_and] at heq
      obtain ⟨rfl, -⟩ := hds.unique hds' heq
      exact absurd hlead' hlead
  | pair hds hes hlead htrail h ih =>
    cases h' with
    | nil => simp at heq
    | byte => simp_all
    | letter hletter' =>
      simp only [List.cons_append, List.cons.injEq, true_and] at heq
      exact absurd hletter' (heq.1 ▸ not_mem_escapeLetters _)
    | unit hds' hlead' htrail' h' =>
      simp only [List.cons_append, List.append_assoc, List.cons.injEq, true_and] at heq
      obtain ⟨rfl, -⟩ := hds.unique hds' heq
      exact absurd hlead hlead'
    | pair hds' hes' hlead' htrail' h' =>
      simp only [List.cons_append, List.append_assoc, List.cons.injEq, true_and] at heq
      obtain ⟨rfl, heq⟩ := hds.unique hds' heq
      simp only [List.cons.injEq, true_and] at heq
      obtain ⟨rfl, heq⟩ := hes.unique hes' heq
      obtain ⟨rfl, hrest⟩ := ih h' heq
      exact ⟨rfl, hrest⟩

end Unescapes

/-- What comes before the closing quote and after it can be told apart in one way. -/
def EndsAtQuote (S : Bytes → String → Prop) : Prop :=
  ∀ as as' rest rest' s s', S as s → S as' s' → as ++ 0x22 :: rest = as' ++ 0x22 :: rest' →
    s = s' ∧ rest = rest'

theorem endsAtQuote_quotes : EndsAtQuote Quotes := fun _ _ _ _ _ _ h h' heq => by
  obtain ⟨hout, hrest⟩ := Unescapes.unique h h' heq
  exact ⟨Utf8.encode_injective hout, hrest⟩

/-- What kind of value a text denotes, as its first byte tells. -/
inductive Shape
  | null | yes | no | number | string | array | object
  deriving DecidableEq

def Value.shape {ν : Type} : Value ν → Shape
  | .null => .null
  | .bool true => .yes
  | .bool false => .no
  | .number _ => .number
  | .string _ => .string
  | .array _ => .array
  | .object _ => .object

def Shape.ofByte? (b : UInt8) : Option Shape :=
  if b = 0x6E then some .null
  else if b = 0x74 then some .yes
  else if b = 0x66 then some .no
  else if b = 0x22 then some .string
  else if b = 0x5B then some .array
  else if b = 0x7B then some .object
  else if b = 0x2D ∨ isDigit b = true then some .number
  else none

/-- The bytes that a phrase can start with, if not with a blank. -/
def Phrase.startsWith {ν : Type} (b : UInt8) : Phrase ν → Prop
  | .value t => Shape.ofByte? b = some t.shape
  | .items [] => b = 0x5D
  | .items (t :: _) => Shape.ofByte? b = some t.shape
  | .moreItems [] => b = 0x5D
  | .moreItems (_ :: _) => b = 0x2C
  | .members [] => b = 0x7D
  | .members (_ :: _) => b = 0x22
  | .moreMembers [] => b = 0x7D
  | .moreMembers (_ :: _) => b = 0x2C
  | .member .. => b = 0x22
  | .colon _ => b = 0x3A

/-- Two values are of one shape. -/
def Value.SameShape {ν : Type} : Value ν → Value ν → Prop
  | .null, .null => True
  | .bool b, .bool c => b = c
  | .number _, .number _ => True
  | .string _, .string _ => True
  | .array _, .array _ => True
  | .object _, .object _ => True
  | _, _ => False

theorem Value.sameShape {ν : Type} {t t' : Value ν} {b : UInt8}
    (h : Shape.ofByte? b = some t.shape) (h' : Shape.ofByte? b = some t'.shape) :
    t.SameShape t' := by
  replace h : t.shape = t'.shape := Option.some.inj (h.symm.trans h')
  clear h'
  revert h
  rcases t with - | (- | -) | - | - | - | - <;> rcases t' with - | (- | -) | - | - | - | - <;>
    simp [shape, SameShape]

/-- Two phrases may come at the same places. -/
def Phrase.SameKind {ν : Type} : Phrase ν → Phrase ν → Prop
  | .value _, .value _ => True
  | .items _, .items _ => True
  | .moreItems _, .moreItems _ => True
  | .members _, .members _ => True
  | .moreMembers _, .moreMembers _ => True
  | .member .., .member .. => True
  | .colon _, .colon _ => True
  | _, _ => False

theorem continuesNumber_of_isSpace {b : UInt8} (h : isSpace b = true) :
    continuesNumber b = false := by
  simp only [isSpace, Bool.or_eq_true, beq_iff_eq] at h
  rcases h with ((rfl | rfl) | rfl) | rfl <;> rfl

theorem Shape.ofByte?_of_number {b : UInt8} (h : b = 0x2D ∨ isDigit b = true) :
    Shape.ofByte? b = some .number := by
  have hno : b ≠ 0x6E ∧ b ≠ 0x74 ∧ b ≠ 0x66 ∧ b ≠ 0x22 ∧ b ≠ 0x5B ∧ b ≠ 0x7B := by
    refine ⟨?_, ?_, ?_, ?_, ?_, ?_⟩ <;> (rintro rfl; revert h; decide)
  simp [ofByte?, hno, h]

theorem exists_head_of_word {w : Bytes} {t : Value Literal} (hw : (w, t) ∈ words) :
    ∃ b w', w = b :: w' ∧ Shape.ofByte? b = some t.shape ∧ isSpace b = false := by
  simp only [words, List.mem_cons, Prod.mk.injEq, List.not_mem_nil, or_false] at hw
  rcases hw with ⟨rfl, rfl⟩ | ⟨rfl, rfl⟩ | ⟨rfl, rfl⟩ <;> exact ⟨_, _, rfl, rfl, rfl⟩

theorem not_isSpace_of_ofByte? {b : UInt8} {shape : Shape} (h : Shape.ofByte? b = some shape) :
    isSpace b = false := by
  by_contra hb
  simp only [Bool.not_eq_false, isSpace, Bool.or_eq_true, beq_iff_eq] at hb
  rcases hb with ((rfl | rfl) | rfl) | rfl <;> cases h

namespace Spells

variable {S : Bytes → String → Prop} {p q : Phrase Literal} {bs bs' rest rest' : Bytes}

theorem starts (h : Spells S p bs rest) :
    ∃ b bs', bs = b :: bs' ∧ (isSpace b = true ∨ p.startsWith b) := by
  induction h with
  | space hb h => exact ⟨_, _, rfl, Or.inl hb⟩
  | word hw rest =>
    obtain ⟨b, w', rfl, hb, -⟩ := exists_head_of_word hw
    exact ⟨_, _, rfl, Or.inr hb⟩
  | number l rest =>
    obtain ⟨b, bs', hbs, hb⟩ := l.bytes_eq_cons
    exact ⟨b, bs' ++ rest, by rw [hbs, List.cons_append], Or.inr (Shape.ofByte?_of_number hb)⟩
  | firstItem hb h hs ih =>
    obtain ⟨b', bs', heq, hb'⟩ := ih
    obtain ⟨rfl, rfl⟩ := List.cons.inj heq
    exact ⟨_, _, rfl, Or.inr (hb'.resolve_left (by simp [hb]))⟩
  | firstMember hb h hs ih =>
    obtain ⟨b', bs', heq, hb'⟩ := ih
    obtain ⟨rfl, rfl⟩ := List.cons.inj heq
    exact ⟨_, _, rfl, Or.inr (hb'.resolve_left (by simp [hb]))⟩
  | _ => exact ⟨_, _, rfl, Or.inr rfl⟩

theorem startsWith {b : UInt8} (h : Spells S p (b :: bs) rest) (hb : isSpace b = false) :
    p.startsWith b := by
  obtain ⟨b', bs', heq, hb'⟩ := h.starts
  obtain ⟨rfl, rfl⟩ := List.cons.inj heq
  exact hb'.resolve_left (by simp [hb])

/-- Blanks before a phrase can be passed over in one way. -/
theorem of_space {b : UInt8} (hb : isSpace b = true) (h : Spells S p (b :: bs) rest) :
    Spells S p bs rest := by
  generalize heq : b :: bs = bs' at h
  cases h with
  | space hb' h =>
    obtain ⟨rfl, rfl⟩ := List.cons.inj heq
    exact h
  | word hw rest =>
    obtain ⟨b', w', rfl, -, hb'⟩ := exists_head_of_word hw
    obtain ⟨rfl, -⟩ := List.cons.inj heq
    simp [hb] at hb'
  | number l rest =>
    obtain ⟨b', bs', hbs, hb'⟩ := l.bytes_eq_cons
    rw [hbs] at heq
    obtain ⟨rfl, -⟩ := List.cons.inj heq
    rcases hb' with rfl | hb'
    · cases hb
    · have := continuesNumber_of_isSpace hb
      simp [continuesNumber, hb'] at this
  | firstItem hb' =>
    obtain ⟨rfl, -⟩ := List.cons.inj heq
    simp [hb] at hb'
  | firstMember hb' =>
    obtain ⟨rfl, -⟩ := List.cons.inj heq
    simp [hb] at hb'
  | _ =>
    obtain ⟨rfl, -⟩ := List.cons.inj heq
    cases hb

/-- Blanks may stand before the first item, too. -/
theorem items {t : Value Literal} {ts : List (Value Literal)} {mid : Bytes}
    (h : Spells S (.value t) bs mid) (hs : Spells S (.moreItems ts) mid rest) :
    Spells S (.items (t :: ts)) bs rest := by
  induction bs with
  | nil =>
    obtain ⟨_, _, hnil, -⟩ := h.starts
    cases hnil
  | cons b bs ih =>
    cases hb : isSpace b with
    | true => exact .space hb (ih (h.of_space hb))
    | false => exact .firstItem hb h hs

/-- Blanks may stand before the first member, too. -/
theorem members {key : String} {t : Value Literal} {ms : Members Literal} {mid : Bytes}
    (h : Spells S (.member key t) bs mid) (hs : Spells S (.moreMembers ms) mid rest) :
    Spells S (.members ((key, t) :: ms)) bs rest := by
  induction bs with
  | nil =>
    obtain ⟨_, _, hnil, -⟩ := h.starts
    cases hnil
  | cons b bs ih =>
    cases hb : isSpace b with
    | true => exact .space hb (ih (h.of_space hb))
    | false => exact .firstMember hb h hs

/-- What a text is that starts with a phrase and not with a blank. -/
def Rule (S : Bytes → String → Prop) : Phrase Literal → Bytes → Bytes → Prop
  | .value (.number l), bs, rest => bs = l.bytes ++ rest
  | .value (.string s), bs, rest => ∃ content, S content s ∧ bs = 0x22 :: (content ++ 0x22 :: rest)
  | .value (.array ts), bs, rest => ∃ bs', bs = 0x5B :: bs' ∧ Spells S (.items ts) bs' rest
  | .value (.object ms), bs, rest => ∃ bs', bs = 0x7B :: bs' ∧ Spells S (.members ms) bs' rest
  | .value t, bs, rest => ∃ w, (w, t) ∈ words ∧ bs = w ++ rest
  | .items [], bs, rest => bs = 0x5D :: rest
  | .items (t :: ts), bs, rest =>
    ∃ mid, Spells S (.value t) bs mid ∧ Spells S (.moreItems ts) mid rest
  | .moreItems [], bs, rest => bs = 0x5D :: rest
  | .moreItems (t :: ts), bs, rest =>
    ∃ bs' mid, bs = 0x2C :: bs' ∧ Spells S (.value t) bs' mid ∧ Spells S (.moreItems ts) mid rest
  | .members [], bs, rest => bs = 0x7D :: rest
  | .members ((key, t) :: ms), bs, rest =>
    ∃ mid, Spells S (.member key t) bs mid ∧ Spells S (.moreMembers ms) mid rest
  | .moreMembers [], bs, rest => bs = 0x7D :: rest
  | .moreMembers ((key, t) :: ms), bs, rest =>
    ∃ bs' mid, bs = 0x2C :: bs' ∧ Spells S (.member key t) bs' mid ∧
      Spells S (.moreMembers ms) mid rest
  | .member key t, bs, rest => ∃ content bs', S content key ∧
      bs = 0x22 :: (content ++ 0x22 :: bs') ∧ Spells S (.colon t) bs' rest
  | .colon t, bs, rest => ∃ bs', bs = 0x3A :: bs' ∧ Spells S (.value t) bs' rest

theorem rule {b : UInt8} (h : Spells S p (b :: bs) rest) (hb : isSpace b = false) :
    Rule S p (b :: bs) rest := by
  generalize heq : b :: bs = cs at h
  cases h with
  | space hb' h =>
    obtain ⟨rfl, -⟩ := List.cons.inj heq
    simp [hb] at hb'
  | word hw =>
    have := hw
    simp only [words, List.mem_cons, Prod.mk.injEq, List.not_mem_nil, or_false] at hw
    rcases hw with ⟨-, rfl⟩ | ⟨-, rfl⟩ | ⟨-, rfl⟩ <;> exact ⟨_, this, rfl⟩
  | number l => rfl
  | string h => exact ⟨_, h, rfl⟩
  | array h => exact ⟨_, rfl, h⟩
  | object h => exact ⟨_, rfl, h⟩
  | noItems => rfl
  | firstItem _ h hs => exact ⟨_, h, hs⟩
  | endItems => rfl
  | nextItem h hs => exact ⟨_, _, rfl, h, hs⟩
  | noMembers => rfl
  | firstMember _ h hs => exact ⟨_, h, hs⟩
  | endMembers => rfl
  | nextMember h hs => exact ⟨_, _, rfl, h, hs⟩
  | member hkey h => exact ⟨_, _, hkey, rfl, h⟩
  | colon h => exact ⟨_, rfl, h⟩

theorem word_unique {w : Bytes} {t t' : Value Literal} (hw : (w, t) ∈ words)
    (hsame : t.SameShape t') (hrule : Rule S (.value t') (w ++ rest) rest') :
    t = t' ∧ rest = rest' := by
  have hrule' : t = t' → ∃ w', (w', t) ∈ words ∧ w ++ rest = w' ++ rest' := by
    rintro rfl
    simp only [words, List.mem_cons, Prod.mk.injEq, List.not_mem_nil, or_false] at hw
    rcases hw with ⟨-, rfl⟩ | ⟨-, rfl⟩ | ⟨-, rfl⟩ <;> exact hrule
  simp only [words, List.mem_cons, Prod.mk.injEq, List.not_mem_nil, or_false] at hw hrule'
  have htt : t = t' := by
    rcases hw with ⟨-, rfl⟩ | ⟨-, rfl⟩ | ⟨-, rfl⟩ <;> cases t' <;>
      first | rfl | exact hsame.elim | exact congrArg _ hsame
  obtain ⟨w', hw', heq⟩ := hrule' htt
  refine ⟨htt, ?_⟩
  rcases hw with ⟨rfl, rfl⟩ | ⟨rfl, rfl⟩ | ⟨rfl, rfl⟩ <;> simp at hw' <;> subst hw' <;>
    exact List.append_cancel_left heq

/-- What comes after an item or a member does not go on with a number. -/
theorem boundary (h : Spells S p bs rest)
    (hp : (∃ ts, p = .moreItems ts) ∨ ∃ ms, p = .moreMembers ms) : Boundary bs := by
  obtain ⟨b, bs', rfl, hb⟩ := h.starts
  intro b' hb'
  obtain rfl : b = b' := by simpa using hb'
  rcases hb with hb | hb
  · exact continuesNumber_of_isSpace hb
  · rcases hp with ⟨ts, rfl⟩ | ⟨ms, rfl⟩
    · cases ts <;> (obtain rfl := hb; rfl)
    · cases ms <;> (obtain rfl := hb; rfl)

/-- A text starts with no other phrase of the kind, and not with this one in another way. -/
def Unique (S : Bytes → String → Prop) (p : Phrase Literal) (bs rest : Bytes) : Prop :=
  ∀ q rest', Spells S q bs rest' → p.SameKind q → Boundary rest → Boundary rest' →
    p = q ∧ rest = rest'

namespace Unique

variable {t : Value Literal} {ts : List (Value Literal)} {ms : Members Literal} {key : String}
  {b : UInt8} {content mid : Bytes}

theorem space (hb : isSpace b = true) (h : Unique S p bs rest) : Unique S p (b :: bs) rest :=
  fun _ _ h' => h _ _ (h'.of_space hb)

/-- The first byte tells the shape of a value. -/
theorem of_shape (hshape : Shape.ofByte? b = some t.shape)
    (h : ∀ t' rest', t.SameShape t' → Rule S (.value t') (b :: bs) rest' → Boundary rest →
      Boundary rest' → t = t' ∧ rest = rest') :
    Unique S (.value t) (b :: bs) rest := by
  intro q rest' h' hkind hrest hrest'
  have hspace := not_isSpace_of_ofByte? hshape
  cases q with
  | value t' =>
    obtain ⟨rfl, hend⟩ := h t' rest' (Value.sameShape hshape (h'.startsWith hspace))
      (h'.rule hspace) hrest hrest'
    exact ⟨rfl, hend⟩
  | _ => exact hkind.elim

theorem word {w : Bytes} (hw : (w, t) ∈ words) (rest : Bytes) :
    Unique S (.value t) (w ++ rest) rest := by
  obtain ⟨b, w', rfl, hb, -⟩ := exists_head_of_word hw
  exact of_shape hb fun _ _ hsame hrule _ _ => word_unique hw hsame hrule

theorem number (l : Literal) (rest : Bytes) :
    Unique S (.value (.number l)) (l.bytes ++ rest) rest := by
  obtain ⟨b, bs, hbs, hb⟩ := l.bytes_eq_cons
  rw [hbs]
  refine of_shape (Shape.ofByte?_of_number hb) fun t rest' hsame hrule hrest hrest' => ?_
  cases t with
  | number l' =>
    obtain ⟨rfl, hend⟩ := Literal.eq_of_bytes_append_eq hrest hrest'
      ((congrArg (· ++ rest) hbs).trans hrule)
    exact ⟨rfl, hend⟩
  | _ => exact hsame.elim

theorem string (hS : EndsAtQuote S) {s : String} (h : S content s) (rest : Bytes) :
    Unique S (.value (.string s)) (0x22 :: (content ++ 0x22 :: rest)) rest := by
  refine of_shape rfl fun t rest' hsame hrule _ _ => ?_
  cases t with
  | string s' =>
    obtain ⟨content', h', heq⟩ := hrule
    obtain ⟨rfl, hend⟩ := hS _ _ _ _ _ _ h h' (List.cons.inj heq).2
    exact ⟨rfl, hend⟩
  | _ => exact hsame.elim

theorem array (h : Unique S (.items ts) bs rest) :
    Unique S (.value (.array ts)) (0x5B :: bs) rest := by
  refine of_shape rfl fun t rest' hsame hrule hrest hrest' => ?_
  cases t with
  | array ts' =>
    obtain ⟨_, heq, h'⟩ := hrule
    obtain ⟨-, rfl⟩ := List.cons.inj heq
    obtain ⟨heq, hend⟩ := h _ _ h' trivial hrest hrest'
    cases heq
    exact ⟨rfl, hend⟩
  | _ => exact hsame.elim

theorem object (h : Unique S (.members ms) bs rest) :
    Unique S (.value (.object ms)) (0x7B :: bs) rest := by
  refine of_shape rfl fun t rest' hsame hrule hrest hrest' => ?_
  cases t with
  | object ms' =>
    obtain ⟨_, heq, h'⟩ := hrule
    obtain ⟨-, rfl⟩ := List.cons.inj heq
    obtain ⟨heq, hend⟩ := h _ _ h' trivial hrest hrest'
    cases heq
    exact ⟨rfl, hend⟩
  | _ => exact hsame.elim

/-- An item and those that follow. -/
theorem item {t' : Value Literal} {ts' : List (Value Literal)} {mid' : Bytes}
    (h : Unique S (.value t) bs mid) (hmid : Boundary mid) (hs : Unique S (.moreItems ts) mid rest)
    (h' : Spells S (.value t') bs mid') (hs' : Spells S (.moreItems ts') mid' rest')
    (hrest : Boundary rest) (hrest' : Boundary rest') : t = t' ∧ ts = ts' ∧ rest = rest' := by
  obtain ⟨heq, rfl⟩ := h _ _ h' trivial hmid (hs'.boundary (Or.inl ⟨_, rfl⟩))
  obtain ⟨heqs, hend⟩ := hs _ _ hs' trivial hrest hrest'
  cases heq
  cases heqs
  exact ⟨rfl, rfl, hend⟩

/-- A member and those that follow. -/
theorem entry {key' : String} {t' : Value Literal} {ms' : Members Literal} {mid' : Bytes}
    (h : Unique S (.member key t) bs mid) (hmid : Boundary mid)
    (hs : Unique S (.moreMembers ms) mid rest) (h' : Spells S (.member key' t') bs mid')
    (hs' : Spells S (.moreMembers ms') mid' rest') (hrest : Boundary rest)
    (hrest' : Boundary rest') : key = key' ∧ t = t' ∧ ms = ms' ∧ rest = rest' := by
  obtain ⟨heq, rfl⟩ := h _ _ h' trivial hmid (hs'.boundary (Or.inr ⟨_, rfl⟩))
  obtain ⟨heqs, hend⟩ := hs _ _ hs' trivial hrest hrest'
  cases heq
  cases heqs
  exact ⟨rfl, rfl, rfl, hend⟩

theorem noItems (rest : Bytes) : Unique S (.items []) (0x5D :: rest) rest := by
  intro q rest' h' hkind _ _
  cases q with
  | items ts =>
    cases ts with
    | nil => exact ⟨rfl, (List.cons.inj (h'.rule rfl)).2⟩
    | cons t ts => cases h'.startsWith rfl
  | _ => exact hkind.elim

theorem firstItem (hb : isSpace b = false) (hspells : Spells S (.value t) (b :: bs) mid)
    (h : Unique S (.value t) (b :: bs) mid) (hmid : Boundary mid)
    (hs : Unique S (.moreItems ts) mid rest) : Unique S (.items (t :: ts)) (b :: bs) rest := by
  intro q rest' h' hkind hrest hrest'
  cases q with
  | items ts' =>
    cases ts' with
    | nil =>
      obtain ⟨rfl, -⟩ := List.cons.inj (h'.rule hb)
      cases hspells.startsWith rfl
    | cons t' ts' =>
      obtain ⟨mid', ht, hts⟩ := h'.rule hb
      obtain ⟨rfl, rfl, hend⟩ := h.item hmid hs ht hts hrest hrest'
      exact ⟨rfl, hend⟩
  | _ => exact hkind.elim

theorem endItems (rest : Bytes) : Unique S (.moreItems []) (0x5D :: rest) rest := by
  intro q rest' h' hkind _ _
  cases q with
  | moreItems ts =>
    cases ts with
    | nil => exact ⟨rfl, (List.cons.inj (h'.rule rfl)).2⟩
    | cons t ts => cases h'.startsWith rfl
  | _ => exact hkind.elim

theorem nextItem (h : Unique S (.value t) bs mid) (hmid : Boundary mid)
    (hs : Unique S (.moreItems ts) mid rest) :
    Unique S (.moreItems (t :: ts)) (0x2C :: bs) rest := by
  intro q rest' h' hkind hrest hrest'
  cases q with
  | moreItems ts' =>
    cases ts' with
    | nil => cases h'.startsWith rfl
    | cons t' ts' =>
      obtain ⟨_, mid', heq, ht, hts⟩ := h'.rule rfl
      obtain ⟨-, rfl⟩ := List.cons.inj heq
      obtain ⟨rfl, rfl, hend⟩ := h.item hmid hs ht hts hrest hrest'
      exact ⟨rfl, hend⟩
  | _ => exact hkind.elim

theorem noMembers (rest : Bytes) : Unique S (.members []) (0x7D :: rest) rest := by
  intro q rest' h' hkind _ _
  cases q with
  | members ms =>
    cases ms with
    | nil => exact ⟨rfl, (List.cons.inj (h'.rule rfl)).2⟩
    | cons m ms => cases h'.startsWith rfl
  | _ => exact hkind.elim

theorem firstMember (hb : isSpace b = false) (hspells : Spells S (.member key t) (b :: bs) mid)
    (h : Unique S (.member key t) (b :: bs) mid) (hmid : Boundary mid)
    (hs : Unique S (.moreMembers ms) mid rest) :
    Unique S (.members ((key, t) :: ms)) (b :: bs) rest := by
  intro q rest' h' hkind hrest hrest'
  cases q with
  | members ms' =>
    cases ms' with
    | nil =>
      obtain ⟨rfl, -⟩ := List.cons.inj (h'.rule hb)
      cases hspells.startsWith rfl
    | cons m ms' =>
      obtain ⟨mid', ht, hts⟩ := h'.rule hb
      obtain ⟨rfl, rfl, rfl, hend⟩ := h.entry hmid hs ht hts hrest hrest'
      exact ⟨rfl, hend⟩
  | _ => exact hkind.elim

theorem endMembers (rest : Bytes) : Unique S (.moreMembers []) (0x7D :: rest) rest := by
  intro q rest' h' hkind _ _
  cases q with
  | moreMembers ms =>
    cases ms with
    | nil => exact ⟨rfl, (List.cons.inj (h'.rule rfl)).2⟩
    | cons m ms => cases h'.startsWith rfl
  | _ => exact hkind.elim

theorem nextMember (h : Unique S (.member key t) bs mid) (hmid : Boundary mid)
    (hs : Unique S (.moreMembers ms) mid rest) :
    Unique S (.moreMembers ((key, t) :: ms)) (0x2C :: bs) rest := by
  intro q rest' h' hkind hrest hrest'
  cases q with
  | moreMembers ms' =>
    cases ms' with
    | nil => cases h'.startsWith rfl
    | cons m ms' =>
      obtain ⟨_, mid', heq, ht, hts⟩ := h'.rule rfl
      obtain ⟨-, rfl⟩ := List.cons.inj heq
      obtain ⟨rfl, rfl, rfl, hend⟩ := h.entry hmid hs ht hts hrest hrest'
      exact ⟨rfl, hend⟩
  | _ => exact hkind.elim

theorem member (hS : EndsAtQuote S) (hkey : S content key) (h : Unique S (.colon t) bs rest) :
    Unique S (.member key t) (0x22 :: (content ++ 0x22 :: bs)) rest := by
  intro q rest' h' hkind hrest hrest'
  cases q with
  | member key' t' =>
    obtain ⟨content', bs', hkey', heq, ht⟩ := h'.rule rfl
    obtain ⟨rfl, rfl⟩ := hS _ _ _ _ _ _ hkey hkey' (List.cons.inj heq).2
    obtain ⟨heq, hend⟩ := h _ _ ht trivial hrest hrest'
    cases heq
    exact ⟨rfl, hend⟩
  | _ => exact hkind.elim

theorem colon (h : Unique S (.value t) bs rest) : Unique S (.colon t) (0x3A :: bs) rest := by
  intro q rest' h' hkind hrest hrest'
  cases q with
  | colon t' =>
    obtain ⟨_, heq, ht⟩ := h'.rule rfl
    obtain ⟨-, rfl⟩ := List.cons.inj heq
    obtain ⟨heq, hend⟩ := h _ _ ht trivial hrest hrest'
    cases heq
    exact ⟨rfl, hend⟩
  | _ => exact hkind.elim

end Unique

/-- A text starts with one phrase of a kind at most, if strings end in one way. -/
theorem unique (hS : EndsAtQuote S) (h : Spells S p bs rest) : Unique S p bs rest := by
  induction h with
  | space hb _ ih => exact ih.space hb
  | word hw rest => exact .word hw rest
  | number l rest => exact .number l rest
  | string h rest => exact .string hS h rest
  | array _ ih => exact ih.array
  | object _ ih => exact ih.object
  | noItems rest => exact .noItems rest
  | firstItem hb h hs ih ihs => exact ih.firstItem hb h (hs.boundary (Or.inl ⟨_, rfl⟩)) ihs
  | endItems rest => exact .endItems rest
  | nextItem _ hs ih ihs => exact ih.nextItem (hs.boundary (Or.inl ⟨_, rfl⟩)) ihs
  | noMembers rest => exact .noMembers rest
  | firstMember hb h hs ih ihs => exact ih.firstMember hb h (hs.boundary (Or.inr ⟨_, rfl⟩)) ihs
  | endMembers rest => exact .endMembers rest
  | nextMember _ hs ih ihs => exact ih.nextMember (hs.boundary (Or.inr ⟨_, rfl⟩)) ihs
  | member hkey _ ih => exact ih.member hS hkey
  | colon _ ih => exact ih.colon

end Spells

/-- A text denotes one value at most. -/
theorem Denotes.unique {bs : Bytes} {t t' : Value Literal} (h : Denotes bs t)
    (h' : Denotes bs t') : t = t' := by
  have hblank : ∀ {rest : Bytes}, (∀ b ∈ rest, isSpace b = true) → Boundary rest :=
    fun hrest b hb => continuesNumber_of_isSpace (hrest b (List.mem_of_mem_head? hb))
  obtain ⟨rest, hspells, hrest⟩ := h
  obtain ⟨rest', hspells', hrest'⟩ := h'
  obtain ⟨heq, -⟩ := hspells.unique endsAtQuote_quotes _ _ hspells' trivial (hblank hrest)
    (hblank hrest')
  cases heq
  rfl

end FramedRelay.Json
