import FramedRelay.Proofs.Json.Printing
import FramedRelay.Proofs.Json.Skimming

/-!
# Which texts denote a value

A JSON text denotes a value if and only if it is UTF-8 as a whole and its escapes of surrogates come
in pairs (`exists_denotes_iff`). This is what `Denotes` asks of each string literal by itself, that
it stands for a text, in terms of the bytes.

UTF-8 can be split before and after every character (`isUtf8_append_char`). So an escape, all of
whose bytes are ASCII, can be exchanged for its character (`Unescapes.isUtf8_iff`), and the quotes
of a string literal part it from the rest of the text.
-/

namespace FramedRelay.Json

/-! ## UTF-8 -/

/-- The bytes are those of a text. -/
def IsUtf8 (bs : Bytes) : Prop := ∃ cs, bytesOf cs = bs

section

variable {as bs pre rest : Bytes} {b : UInt8} {c : Char}

theorem isUtf8_encode (s : String) : IsUtf8 (Utf8.encode s) := ⟨s.toList, rfl⟩

theorem IsUtf8.exists_encode (h : IsUtf8 bs) : ∃ s, Utf8.encode s = bs := by
  obtain ⟨cs, rfl⟩ := h
  exact ⟨String.ofList cs, by rw [Utf8.encode, String.toList_ofList, bytesOf]⟩

theorem IsUtf8.append (h : IsUtf8 as) (h' : IsUtf8 bs) : IsUtf8 (as ++ bs) := by
  obtain ⟨cs, rfl⟩ := h
  obtain ⟨ds, rfl⟩ := h'
  exact ⟨cs ++ ds, bytesOf_append cs ds⟩

/-- Where a character can start, one starts. -/
theorem IsUtf8.split (hb : b.IsUTF8FirstByte) (h : IsUtf8 (pre ++ b :: rest)) :
    IsUtf8 pre ∧ IsUtf8 (b :: rest) := by
  obtain ⟨cs, hcs⟩ := h
  induction cs generalizing pre with
  | nil => simp [bytesOf] at hcs
  | cons c cs ih =>
    rw [bytesOf, List.flatMap_cons] at hcs
    rcases List.append_eq_append_iff.1 hcs with ⟨as, rfl, hrest⟩ | ⟨as, hc, hrest⟩
    · obtain ⟨has, hrest⟩ := ih hrest
      exact ⟨.append ⟨[c], List.append_nil _⟩ has, hrest⟩
    · cases as with
      | nil =>
        have hpre : bytesOf [c] = pre := (List.append_nil _).trans (hc.trans (List.append_nil _))
        exact ⟨⟨[c], hpre⟩, cs, hrest.symm⟩
      | cons d as =>
        obtain ⟨rfl, -⟩ := List.cons.inj hrest
        -- A byte inside a character starts none.
        have hnil : pre.length = 0 := by
          have hlt : pre.length < (String.utf8EncodeChar c).length := by simp [hc]
          have hfirst : (String.utf8EncodeChar c)[pre.length].IsUTF8FirstByte := by
            simpa [hc] using hb
          exact UInt8.isUTF8FirstByte_getElem_utf8EncodeChar.1 hfirst
        obtain rfl := List.length_eq_zero_iff.1 hnil
        exact ⟨⟨[], rfl⟩, c :: cs, hcs⟩

theorem isUtf8_char_append : IsUtf8 (String.utf8EncodeChar c ++ rest) ↔ IsUtf8 rest := by
  refine ⟨fun ⟨cs, hcs⟩ => ?_, fun h => .append ⟨[c], List.append_nil _⟩ h⟩
  have hdecode : ∀ (c : Char) (bs : Bytes),
      (String.utf8EncodeChar c ++ bs).toByteArray.utf8DecodeChar? 0 = some c := by
    intro c bs
    rw [List.toByteArray_append]
    exact ByteArray.utf8DecodeChar?_utf8EncodeChar_append
  cases cs with
  | nil => exact absurd (List.append_eq_nil_iff.1 hcs.symm).1 String.utf8EncodeChar_ne_nil
  | cons d cs =>
    rw [bytesOf, List.flatMap_cons] at hcs
    have hd := hdecode d (cs.flatMap String.utf8EncodeChar)
    rw [hcs, hdecode] at hd
    obtain rfl := Option.some.inj hd
    exact ⟨cs, List.append_cancel_left hcs⟩

/-- Text can be split before and after a character. -/
theorem isUtf8_append_char :
    IsUtf8 (pre ++ (String.utf8EncodeChar c ++ rest)) ↔ IsUtf8 pre ∧ IsUtf8 rest := by
  refine ⟨fun h => ?_, fun h => h.1.append (isUtf8_char_append.2 h.2)⟩
  obtain ⟨b, bs, hc⟩ := List.exists_cons_of_ne_nil (String.utf8EncodeChar_ne_nil (c := c))
  have hb : b.IsUTF8FirstByte := by
    have := UInt8.isUTF8FirstByte_getElem_zero_utf8EncodeChar (c := c)
    simpa [hc] using this
  rw [hc, List.cons_append] at h
  obtain ⟨hpre, hrest⟩ := h.split hb
  rw [← List.cons_append, ← hc] at hrest
  exact ⟨hpre, isUtf8_char_append.1 hrest⟩

/-- An ASCII byte is a character. -/
theorem exists_utf8EncodeChar_eq (hb : b < 0x80) : ∃ c, String.utf8EncodeChar c = [b] := by
  have hlt : b.toNat < 128 := UInt8.lt_iff_toNat_lt.1 hb
  have hnat : (Char.ofNat b.toNat).toNat = b.toNat := by
    rw [Char.ofNat, dif_pos (Or.inl (by omega))]
    rfl
  refine ⟨Char.ofNat b.toNat, ?_⟩
  rw [utf8EncodeChar_of_lt (by omega), List.singleton_inj, ← UInt8.toNat_inj,
    toNat_asciiByte (by omega), hnat]

theorem isUtf8_append_cons (hb : b < 0x80) :
    IsUtf8 (pre ++ b :: rest) ↔ IsUtf8 pre ∧ IsUtf8 rest := by
  obtain ⟨c, hc⟩ := exists_utf8EncodeChar_eq hb
  rw [← List.singleton_append, ← hc, isUtf8_append_char]

theorem isUtf8_ascii_append (has : ∀ b ∈ as, b < 0x80) : IsUtf8 (as ++ rest) ↔ IsUtf8 rest := by
  induction as with
  | nil => rfl
  | cons a as ih =>
    obtain ⟨ha, has⟩ := List.forall_mem_cons.1 has
    obtain ⟨c, hc⟩ := exists_utf8EncodeChar_eq ha
    rw [List.cons_append, ← List.singleton_append, ← hc, isUtf8_char_append, ih has]

theorem isUtf8_cons (hb : b < 0x80) : IsUtf8 (b :: rest) ↔ IsUtf8 rest := by
  have hascii : ∀ a ∈ [b], a < 0x80 := by simpa using hb
  exact isUtf8_ascii_append hascii

end

/-! ## Strings -/

theorem lt_of_mem_escapeLetters {b c : UInt8} (h : (b, c) ∈ escapeLetters) :
    b < 0x80 ∧ c < 0x80 := by
  have hall : ∀ a ∈ escapeLetters, a.1 < 0x80 ∧ a.2 < 0x80 := by simp [escapeLetters]
  exact hall _ h

theorem IsUnit.ascii {ds : Bytes} {u : ℕ} (h : IsUnit ds u) : ∀ b ∈ ds, b < 0x80 :=
  fun b hb => (h.bounds b hb).2

/-- Escaped or not, content is UTF-8 or is not. -/
theorem Unescapes.isUtf8_iff {content out : Bytes} (h : Unescapes content out) (pre : Bytes) :
    IsUtf8 (pre ++ content) ↔ IsUtf8 (pre ++ out) := by
  induction h generalizing pre with
  | nil => rfl
  | @byte b bs out _ _ _ _ ih => simpa using ih (pre ++ [b])
  | letter hletter _ ih =>
    obtain ⟨hb, hc⟩ := lt_of_mem_escapeLetters hletter
    rw [isUtf8_append_cons (by decide), isUtf8_cons hb, isUtf8_append_cons hc]
    exact and_congr_right' (ih [])
  | unit hds _ _ _ ih =>
    rw [isUtf8_append_cons (by decide), isUtf8_cons (by decide), isUtf8_ascii_append hds.ascii,
      isUtf8_append_char]
    exact and_congr_right' (ih [])
  | pair hds hes _ _ _ ih =>
    rw [isUtf8_append_cons (by decide), isUtf8_cons (by decide), isUtf8_ascii_append hds.ascii,
      isUtf8_cons (by decide), isUtf8_cons (by decide), isUtf8_ascii_append hes.ascii,
      isUtf8_append_char]
    exact and_congr_right' (ih [])

/-- The content of a string literal in which the escapes of surrogates come in pairs. -/
def Paired (content : Bytes) (_ : String) : Prop := ∃ out, Unescapes content out

/-- In UTF-8, paired escapes are those of a text. -/
theorem Paired.exists_quotes {content rest : Bytes} {s : String} (h : Paired content s)
    (hutf8 : IsUtf8 (content ++ 0x22 :: rest)) : IsUtf8 rest ∧ ∃ s', Quotes content s' := by
  obtain ⟨out, hout⟩ := h
  obtain ⟨hcontent, hrest⟩ := (isUtf8_append_cons (by decide)).1 hutf8
  obtain ⟨s', rfl⟩ := ((hout.isUtf8_iff []).1 hcontent).exists_encode
  exact ⟨hrest, s', hout⟩

theorem Quotes.isUtf8 {content : Bytes} {s : String} (h : Quotes content s) : IsUtf8 content :=
  (Unescapes.isUtf8_iff h []).2 (isUtf8_encode s)

/-! ## Phrases -/

theorem words_ascii {w : Bytes} {t : Value Literal} (hw : (w, t) ∈ words) : ∀ b ∈ w, b < 0x80 := by
  simp only [words, List.mem_cons, Prod.mk.injEq, List.not_mem_nil, or_false] at hw
  rcases hw with ⟨rfl, -⟩ | ⟨rfl, -⟩ | ⟨rfl, -⟩ <;> simp

theorem lt_of_isSpace {b : UInt8} (h : isSpace b = true) : b < 0x80 := by
  simp only [isSpace, Bool.or_eq_true, beq_iff_eq] at h
  rcases h with ((rfl | rfl) | rfl) | rfl <;> decide

/-- The bytes start with a spelling of a phrase of the same kind, whose strings denote texts. -/
def Decodes : Phrase Literal → Bytes → Bytes → Prop
  | .value _, bs, rest => ∃ t, Spells Quotes (.value t) bs rest
  | .items _, bs, rest => ∃ ts, Spells Quotes (.items ts) bs rest
  | .moreItems _, bs, rest => ∃ ts, Spells Quotes (.moreItems ts) bs rest
  | .members _, bs, rest => ∃ ms, Spells Quotes (.members ms) bs rest
  | .moreMembers _, bs, rest => ∃ ms, Spells Quotes (.moreMembers ms) bs rest
  | .member .., bs, rest => ∃ key t, Spells Quotes (.member key t) bs rest
  | .colon _, bs, rest => ∃ t, Spells Quotes (.colon t) bs rest

namespace Spells

variable {p : Phrase Literal} {bs rest : Bytes}

/-- In UTF-8, what is spelled with paired escapes is spelled with texts. -/
theorem decodes (h : Spells Paired p bs rest) (hutf8 : IsUtf8 bs) :
    IsUtf8 rest ∧ Decodes p bs rest := by
  induction h with
  | @space p b bs rest hb h ih =>
    obtain ⟨hrest, hp⟩ := ih ((isUtf8_cons (lt_of_isSpace hb)).1 hutf8)
    refine ⟨hrest, ?_⟩
    cases p with
    | member key t =>
      obtain ⟨key', t', h'⟩ := hp
      exact ⟨key', t', .space hb h'⟩
    | _ =>
      obtain ⟨x, h'⟩ := hp
      exact ⟨x, .space hb h'⟩
  | @word w t hw rest => exact ⟨(isUtf8_ascii_append (words_ascii hw)).1 hutf8, t, .word hw rest⟩
  | number l rest =>
    exact ⟨(isUtf8_ascii_append fun b hb => (l.bounds_of_mem_bytes b hb).2).1 hutf8, _,
      .number l rest⟩
  | string h rest =>
    obtain ⟨hrest, s, hs⟩ := h.exists_quotes ((isUtf8_cons (by decide)).1 hutf8)
    exact ⟨hrest, _, .string hs rest⟩
  | array _ ih =>
    obtain ⟨hrest, ts, hts⟩ := ih ((isUtf8_cons (by decide)).1 hutf8)
    exact ⟨hrest, _, .array hts⟩
  | object _ ih =>
    obtain ⟨hrest, ms, hms⟩ := ih ((isUtf8_cons (by decide)).1 hutf8)
    exact ⟨hrest, _, .object hms⟩
  | noItems rest => exact ⟨(isUtf8_cons (by decide)).1 hutf8, _, .noItems rest⟩
  | firstItem hb _ _ ih ihs =>
    obtain ⟨hmid, t, ht⟩ := ih hutf8
    obtain ⟨hrest, ts, hts⟩ := ihs hmid
    exact ⟨hrest, _, .firstItem hb ht hts⟩
  | endItems rest => exact ⟨(isUtf8_cons (by decide)).1 hutf8, _, .endItems rest⟩
  | nextItem _ _ ih ihs =>
    obtain ⟨hmid, t, ht⟩ := ih ((isUtf8_cons (by decide)).1 hutf8)
    obtain ⟨hrest, ts, hts⟩ := ihs hmid
    exact ⟨hrest, _, .nextItem ht hts⟩
  | noMembers rest => exact ⟨(isUtf8_cons (by decide)).1 hutf8, _, .noMembers rest⟩
  | firstMember hb _ _ ih ihs =>
    obtain ⟨hmid, key, t, ht⟩ := ih hutf8
    obtain ⟨hrest, ms, hms⟩ := ihs hmid
    exact ⟨hrest, _, .firstMember hb ht hms⟩
  | endMembers rest => exact ⟨(isUtf8_cons (by decide)).1 hutf8, _, .endMembers rest⟩
  | nextMember _ _ ih ihs =>
    obtain ⟨hmid, key, t, ht⟩ := ih ((isUtf8_cons (by decide)).1 hutf8)
    obtain ⟨hrest, ms, hms⟩ := ihs hmid
    exact ⟨hrest, _, .nextMember ht hms⟩
  | member hkey _ ih =>
    obtain ⟨hmid, key, hkey⟩ := hkey.exists_quotes ((isUtf8_cons (by decide)).1 hutf8)
    obtain ⟨hrest, t, ht⟩ := ih hmid
    exact ⟨hrest, _, _, .member hkey ht⟩
  | colon _ ih =>
    obtain ⟨hrest, t, ht⟩ := ih ((isUtf8_cons (by decide)).1 hutf8)
    exact ⟨hrest, _, .colon ht⟩

/-- What is spelled with texts is UTF-8 if what comes after it is. -/
theorem isUtf8 (h : Spells Quotes p bs rest) (hrest : IsUtf8 rest) : IsUtf8 bs := by
  induction h with
  | space hb _ ih => exact (isUtf8_cons (lt_of_isSpace hb)).2 (ih hrest)
  | word hw rest => exact (isUtf8_ascii_append (words_ascii hw)).2 hrest
  | number l rest =>
    exact (isUtf8_ascii_append fun b hb => (l.bounds_of_mem_bytes b hb).2).2 hrest
  | string h rest =>
    exact (isUtf8_cons (by decide)).2 ((isUtf8_append_cons (by decide)).2 ⟨h.isUtf8, hrest⟩)
  | member hkey _ ih =>
    exact (isUtf8_cons (by decide)).2 ((isUtf8_append_cons (by decide)).2 ⟨hkey.isUtf8, ih hrest⟩)
  | array _ ih | object _ ih | colon _ ih => exact (isUtf8_cons (by decide)).2 (ih hrest)
  | noItems rest | endItems rest | noMembers rest | endMembers rest =>
    exact (isUtf8_cons (by decide)).2 hrest
  | firstItem _ _ _ ih ihs | firstMember _ _ _ ih ihs => exact ih (ihs hrest)
  | nextItem _ _ ih ihs | nextMember _ _ ih ihs =>
    exact (isUtf8_cons (by decide)).2 (ih (ihs hrest))

end Spells

/-- The texts that denote a value are those in UTF-8 in which the escapes of surrogates come in
pairs. -/
theorem exists_denotes_iff {bs : Bytes} :
    (∃ t, Denotes bs t) ↔
      IsUtf8 bs ∧ ∃ t rest, Spells Paired (.value t) bs rest ∧ ∀ b ∈ rest, isSpace b = true := by
  constructor
  · rintro ⟨t, rest, hspells, hrest⟩
    have hutf8 : IsUtf8 (rest ++ []) :=
      (isUtf8_ascii_append fun b hb => lt_of_isSpace (hrest b hb)).2 ⟨[], rfl⟩
    rw [List.append_nil] at hutf8
    exact ⟨hspells.isUtf8 hutf8, t, rest, hspells.mono fun _ _ h => ⟨_, h⟩, hrest⟩
  · rintro ⟨hutf8, t, rest, hspells, hrest⟩
    obtain ⟨-, t', hspells'⟩ := hspells.decodes hutf8
    exact ⟨t', rest, hspells', hrest⟩

end FramedRelay.Json
