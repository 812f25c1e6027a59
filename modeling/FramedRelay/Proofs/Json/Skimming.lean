import FramedRelay.Proofs.Json.Grammar
import FramedRelay.Proofs.Json.Numerals

/-!
# What checking a JSON text accepts

`IsText bs` says that `bs` is a JSON text, of any depth and with any numbers. It is the grammar
`Spells` once more, with strings of which only the form counts (`Escaped`): no control characters,
and escapes of one letter or of four hexadecimal digits. `skim` accepts these texts and no others
(`skim_eq_ok_iff`).

That a text is accepted is shown along its spelling: whatever the machine takes after a phrase, it
takes with the phrase before it (`Skim.accepts_of_spells`). The other direction goes from the end of
the text to its beginning, with what may come at a state in terms of the grammar
(`Skim.State.Completes`); no brackets need to be counted, since the stack says which phrases are
still open (`Skim.After`).
-/

namespace FramedRelay.Json

/-! ## The grammar -/

/-- The form of what stands between the quotes of a string literal. -/
inductive Escaped : Bytes → Prop
  | nil : Escaped []
  | byte {b : UInt8} {bs : Bytes} (hcontrol : 0x20 ≤ b) (hquote : b ≠ 0x22)
      (hbackslash : b ≠ 0x5C) (h : Escaped bs) : Escaped (b :: bs)
  | letter {b c : UInt8} {bs : Bytes} (hletter : (b, c) ∈ escapeLetters) (h : Escaped bs) :
      Escaped (0x5C :: b :: bs)
  | unit {ds bs : Bytes} (hlength : ds.length = 4) (hhex : ∀ b ∈ ds, isHexDigit b = true)
      (h : Escaped bs) : Escaped (0x5C :: 0x75 :: (ds ++ bs))

/-- The content of a string literal, whatever it denotes. -/
def Encloses (content : Bytes) (_ : String) : Prop := Escaped content

/-- The bytes are one JSON text. -/
def IsText (bs : Bytes) : Prop :=
  ∃ t rest, Spells Encloses (.value t) bs rest ∧ ∀ b ∈ rest, isSpace b = true

theorem Unescapes.escaped {content out : Bytes} (h : Unescapes content out) : Escaped content := by
  induction h with
  | nil => exact .nil
  | byte hcontrol hquote hbackslash _ ih => exact .byte hcontrol hquote hbackslash ih
  | letter hletter _ ih => exact .letter hletter ih
  | unit hds _ _ _ ih => exact .unit hds.length_eq hds.isHexDigit ih
  | pair hds hes _ _ _ ih =>
    exact .unit hds.length_eq hds.isHexDigit (.unit hes.length_eq hes.isHexDigit ih)

/-- A spelling does not depend on what strings denote. -/
theorem Spells.mono {S S' : Bytes → String → Prop} (hS : ∀ content s, S content s → S' content s)
    {p : Phrase Literal} {bs rest : Bytes} (h : Spells S p bs rest) : Spells S' p bs rest := by
  induction h with
  | space hb _ ih => exact .space hb ih
  | word hw rest => exact .word hw rest
  | number l rest => exact .number l rest
  | string h rest => exact .string (hS _ _ h) rest
  | array _ ih => exact .array ih
  | object _ ih => exact .object ih
  | noItems rest => exact .noItems rest
  | firstItem hb _ _ ih ihs => exact .firstItem hb ih ihs
  | endItems rest => exact .endItems rest
  | nextItem _ _ ih ihs => exact .nextItem ih ihs
  | noMembers rest => exact .noMembers rest
  | firstMember hb _ _ ih ihs => exact .firstMember hb ih ihs
  | endMembers rest => exact .endMembers rest
  | nextMember _ _ ih ihs => exact .nextMember ih ihs
  | member hkey _ ih => exact .member (hS _ _ hkey) ih
  | colon _ ih => exact .colon ih

/-- What denotes a value is a JSON text. -/
theorem Denotes.isText {bs : Bytes} {t : Value Literal} (h : Denotes bs t) : IsText bs := by
  obtain ⟨rest, hspells, hrest⟩ := h
  exact ⟨t, rest, hspells.mono fun _ _ hquotes => Unescapes.escaped hquotes, hrest⟩

/-! ## Machines -/

section

variable {σ α : Type} {step : σ → UInt8 → Except Fault σ} {finish : σ → Except Cause α} {x : α}
  {s s' : σ} {b : UInt8} {bs : Bytes}

/-- The machine takes these bytes at a state, and the text may end after them and comes to `x`. -/
def Yields (step : σ → UInt8 → Except Fault σ) (finish : σ → Except Cause α) (x : α) (s : σ)
    (bs : Bytes) : Prop :=
  ∃ s', feed step s bs = .ok s' ∧ finish s' = .ok x

theorem Yields.nil (h : finish s = .ok x) : Yields step finish x s [] := ⟨s, rfl, h⟩

theorem Yields.cons (hstep : step s b = .ok s') (h : Yields step finish x s' bs) :
    Yields step finish x s (b :: bs) := by
  obtain ⟨s'', hfeed, hfinish⟩ := h
  exact ⟨s'', by rw [feed, hstep]; exact hfeed, hfinish⟩

theorem Yields.ends (h : Yields step finish x s []) : finish s = .ok x := by
  obtain ⟨s', hfeed, hfinish⟩ := h
  obtain rfl := Except.ok.inj hfeed
  exact hfinish

theorem Yields.exists_step (h : Yields step finish x s (b :: bs)) :
    ∃ s', step s b = .ok s' ∧ Yields step finish x s' bs := by
  obtain ⟨s'', hfeed, hfinish⟩ := h
  simp only [feed] at hfeed
  split at hfeed
  · next s' hstep => exact ⟨s', hstep, s'', hfeed, hfinish⟩
  · cases hfeed

end

/-! ## Numbers -/

/-- A byte that goes on with a number neither is a blank nor may come after a value. -/
theorem not_after_of_continuesNumber {b : UInt8} (h : continuesNumber b = true) :
    isSpace b = false ∧ b ≠ 0x2C ∧ b ≠ 0x5D ∧ b ≠ 0x7D := by
  refine ⟨?_, ?_, ?_, ?_⟩
  · by_contra hspace
    rw [continuesNumber_of_isSpace (by simpa using hspace)] at h
    cases h
  all_goals
    rintro rfl
    cases h

/-- The first byte of a number neither is a blank nor starts another value. -/
theorem not_other_of_number {b : UInt8} (h : b = 0x2D ∨ isDigit b = true) :
    isSpace b = false ∧ b ≠ 0x5B ∧ b ≠ 0x7B ∧ b ≠ 0x22 := by
  refine ⟨not_isSpace_of_ofByte? (Shape.ofByte?_of_number h), ?_, ?_, ?_⟩ <;>
    (rintro rfl; revert h; decide)

namespace Numeral.Phase

variable {p : Phase} {b : UInt8} {ds : Bytes}

theorem complete_of_completes_nil (h : p.Completes []) : p.complete = true := by
  cases p with
  | zero | integer | fraction | exponent => rfl
  | minus =>
    obtain ⟨l, -, hnil⟩ := h
    obtain ⟨b, bs, hbytes, -⟩ := l.bytes_eq_cons
    simp [hbytes] at hnil
  | point =>
    obtain ⟨fraction, e?, hne, -, hnil⟩ := h
    simp [hne] at hnil
  | mark =>
    obtain ⟨e, hnil⟩ := h
    simp [e.digits_ne_nil] at hnil
  | sign => exact absurd rfl h.1

/-- A number that is complete ends before a byte with which it could not go on. -/
theorem step_eq_ended (h : p.complete = true) (hb : continuesNumber b = false) :
    p.step b = .ended := by
  simp only [continuesNumber, Bool.or_eq_false_iff, beq_eq_false_iff_ne] at hb
  obtain ⟨⟨⟨hdigit, hpoint⟩, hlower⟩, hupper⟩ := hb
  cases p with
  | minus | point | mark | sign => cases h
  | zero | integer | fraction | exponent =>
    simp [step, afterInteger, hdigit, hpoint, hlower, hupper]

/-- After the whole part comes a point or the mark of an exponent. -/
theorem exists_afterInteger {fraction : Bytes} {e? : Option Exponent}
    (hfraction : ∀ b ∈ fraction, isDigit b = true) (h : b :: ds = tailBytes fraction e?) :
    isDigit b = false ∧ ∃ p, afterInteger b = .more p ∧ p.Completes ds := by
  by_cases hnil : fraction = []
  · subst hnil
    cases e? with
    | none => cases h
    | some e =>
      obtain ⟨rfl, rfl⟩ := List.cons.inj h
      refine ⟨?_, .mark, ?_, e, rfl⟩ <;> rcases e.mark_eq with hmark | hmark <;> rw [hmark] <;> rfl
  · simp only [tailBytes, hnil, if_false, List.cons_append] at h
    obtain ⟨rfl, rfl⟩ := List.cons.inj h
    exact ⟨rfl, .point, rfl, fraction, e?, hnil, hfraction, rfl⟩

/-- A byte with which a number is completed is taken. -/
theorem exists_step_of_completes (h : p.Completes (b :: ds)) :
    ∃ p', p.step b = .more p' ∧ p'.Completes ds := by
  cases p with
  | minus =>
    obtain ⟨l, hpositive, heq⟩ := h
    obtain ⟨d, whole, hwhole⟩ := List.exists_cons_of_ne_nil l.whole_ne_nil
    have hdigits := l.isDigit_whole
    have hzero := l.whole_eq
    simp only [Literal.bytes, Literal.signBytes, hpositive, hwhole, Bool.false_eq_true, if_false,
      List.nil_append, List.cons_append] at heq
    obtain ⟨rfl, rfl⟩ := List.cons.inj heq
    rw [hwhole] at hdigits hzero
    obtain ⟨hb, hwhole'⟩ := List.forall_mem_cons.1 hdigits
    by_cases hb0 : b = 0x30
    · obtain rfl : whole = [] := by simpa [hb0] using hzero
      exact ⟨.zero, by simp [step, hb0], l.fraction, l.exponent?, l.isDigit_fraction, rfl⟩
    · exact ⟨.integer, by simp [step, needDigit, hb0, hb], whole, l.fraction, l.exponent?, hwhole',
        l.isDigit_fraction, rfl⟩
  | zero =>
    obtain ⟨fraction, e?, hfraction, heq⟩ := h
    obtain ⟨hb, p, hstep, hp⟩ := exists_afterInteger hfraction heq
    exact ⟨p, by simp [step, hb, hstep], hp⟩
  | integer =>
    obtain ⟨whole, fraction, e?, hwhole, hfraction, heq⟩ := h
    cases whole with
    | nil =>
      obtain ⟨hb, p, hstep, hp⟩ := exists_afterInteger hfraction heq
      exact ⟨p, by simp [step, hb, hstep], hp⟩
    | cons d whole =>
      obtain ⟨rfl, rfl⟩ := List.cons.inj heq
      obtain ⟨hb, hwhole⟩ := List.forall_mem_cons.1 hwhole
      exact ⟨.integer, by simp [step, hb], whole, fraction, e?, hwhole, hfraction, rfl⟩
  | point =>
    obtain ⟨fraction, e?, hne, hfraction, heq⟩ := h
    obtain ⟨d, fraction, rfl⟩ := List.exists_cons_of_ne_nil hne
    obtain ⟨rfl, rfl⟩ := List.cons.inj heq
    obtain ⟨hb, hfraction⟩ := List.forall_mem_cons.1 hfraction
    exact ⟨.fraction, by simp [step, needDigit, hb], fraction, e?, hfraction, rfl⟩
  | fraction =>
    obtain ⟨fraction, e?, hfraction, heq⟩ := h
    cases fraction with
    | nil =>
      cases e? with
      | none => cases heq
      | some e =>
        obtain ⟨rfl, rfl⟩ := List.cons.inj heq
        refine ⟨.mark, ?_, e, rfl⟩
        rcases e.mark_eq with hmark | hmark <;> rw [hmark] <;> rfl
    | cons d fraction =>
      obtain ⟨rfl, rfl⟩ := List.cons.inj heq
      obtain ⟨hb, hfraction⟩ := List.forall_mem_cons.1 hfraction
      exact ⟨.fraction, by simp [step, hb], fraction, e?, hfraction, rfl⟩
  | mark =>
    obtain ⟨e, heq⟩ := h
    have hdigits := e.isDigit_digits
    rcases e.sign_eq with hsign | hsign | hsign <;> rw [hsign] at heq
    · rw [List.nil_append] at heq
      rw [← heq] at hdigits
      obtain ⟨hb, hds⟩ := List.forall_mem_cons.1 hdigits
      have hno : ¬(b = 0x2B ∨ b = 0x2D) := by rintro (rfl | rfl) <;> cases hb
      exact ⟨.exponent, by simp [step, needDigit, hno, hb], hds⟩
    · obtain ⟨rfl, rfl⟩ := List.cons.inj heq
      exact ⟨.sign, rfl, e.digits_ne_nil, hdigits⟩
    · obtain ⟨rfl, rfl⟩ := List.cons.inj heq
      exact ⟨.sign, rfl, e.digits_ne_nil, hdigits⟩
  | sign =>
    obtain ⟨hb, hds⟩ := List.forall_mem_cons.1 h.2
    exact ⟨.exponent, by simp [step, needDigit, hb], hds⟩
  | exponent =>
    obtain ⟨hb, hds⟩ := List.forall_mem_cons.1 h
    exact ⟨.exponent, by simp [step, hb], hds⟩

/-- A literal starts like a number that its other bytes complete. -/
theorem exists_start?_of_literal (l : Literal) :
    ∃ b bs p, l.bytes = b :: bs ∧ start? b = some p ∧ p.Completes bs := by
  by_cases hn : l.negative = true
  · refine ⟨0x2D, Literal.bytes { l with negative := false }, .minus, ?_, rfl, _, rfl, rfl⟩
    simp [Literal.bytes, Literal.signBytes, hn, Literal.fractionBytes, Literal.exponentBytes]
  · obtain ⟨b, bs, hbytes, -⟩ := l.bytes_eq_cons
    have hminus : Phase.minus.Completes (b :: bs) := ⟨l, by simpa using hn, hbytes.symm⟩
    obtain ⟨p, hstep, hp⟩ := exists_step_of_completes hminus
    refine ⟨b, bs, p, hbytes, ?_, hp⟩
    simp only [step] at hstep
    split_ifs at hstep with hzero
    · obtain rfl := Turn.more.inj hstep
      rw [hzero]
      rfl
    · obtain ⟨hdigit, rfl⟩ := needDigit_eq_more hstep
      have hb : b ≠ 0x2D := by
        rintro rfl
        cases hdigit
      simp [start?, hb, hzero, hdigit]

end Numeral.Phase

namespace Skim

variable {s s' : State} {stack : List Bracket} {b : UInt8} {bs mid rest : Bytes}

/-- The machine takes these bytes at a state, and the text may end after them. -/
abbrev Accepts (s : State) (bs : Bytes) : Prop := Yields State.step State.finish () s bs

/-! ## What is spelled is accepted -/

/-- The states where blanks may come. -/
def State.Between : State → Prop
  | .literal .. | .number .. | .string .. => False
  | _ => True

theorem State.step_eq_between (hs : s.Between) (b : UInt8) : s.step b = s.between b := by
  cases s with
  | literal | number | string => exact hs.elim
  | _ => rfl

theorem State.step_space (hs : s.Between) (hb : isSpace b = true) : s.step b = .ok s := by
  rw [step_eq_between hs, between, if_pos hb]

theorem State.between_afterValue (stack : List Bracket) : (afterValue stack).Between := by
  rcases stack with _ | ⟨_ | _, _⟩ <;> trivial

/-- No byte that is taken after a value goes on with a number. -/
theorem continuesNumber_of_afterValue (h : (State.afterValue stack).step b = .ok s) :
    continuesNumber b = false := by
  by_contra hb
  obtain ⟨hspace, hno⟩ := not_after_of_continuesNumber (by simpa using hb)
  rw [State.step_eq_between (State.between_afterValue stack)] at h
  rcases stack with _ | ⟨_ | _, _⟩ <;>
    simp [State.afterValue, State.between, State.structural, hspace, hno] at h

/-- A number that is complete may end where the text may go on after a value. -/
theorem accepts_number {p : Numeral.Phase} (hp : p.complete = true)
    (h : Accepts (.afterValue stack) rest) : Accepts (.number p stack) rest := by
  cases rest with
  | nil =>
    refine .nil ?_
    rcases stack with _ | ⟨_ | _, _⟩
    · simp [State.finish, hp]
    all_goals cases h.ends
  | cons b rest =>
    obtain ⟨s, hstep, hs⟩ := h.exists_step
    have hended := Numeral.Phase.step_eq_ended hp (continuesNumber_of_afterValue hstep)
    rw [State.step_eq_between (State.between_afterValue stack)] at hstep
    exact .cons (by simp only [State.step, hended, hstep]) hs

theorem accepts_digits {p : Numeral.Phase} {ds : Bytes} (hp : p.Completes ds)
    (h : Accepts (.afterValue stack) rest) : Accepts (.number p stack) (ds ++ rest) := by
  induction ds generalizing p with
  | nil => exact accepts_number (Numeral.Phase.complete_of_completes_nil hp) h
  | cons b ds ih =>
    obtain ⟨p', hstep, hp'⟩ := Numeral.Phase.exists_step_of_completes hp
    exact .cons (by simp only [State.step, hstep]) (ih hp')

theorem accepts_literal (l : Literal) (h : Accepts (.afterValue stack) rest) :
    Accepts (.value stack) (l.bytes ++ rest) := by
  obtain ⟨b, bs, p, hbytes, hstart, hp⟩ := Numeral.Phase.exists_start?_of_literal l
  rw [hbytes]
  refine .cons ?_ (accepts_digits hp h)
  have hb : b = 0x2D ∨ isDigit b = true := by
    obtain ⟨b', bs', hbytes', hb'⟩ := l.bytes_eq_cons
    obtain ⟨rfl, -⟩ := List.cons.inj (hbytes.symm.trans hbytes')
    exact hb'
  obtain ⟨hspace, hno⟩ := not_other_of_number hb
  simp [State.step, State.between, State.structural, startValue, hspace, hno, hstart]

theorem accepts_content {role : Role} {content : Bytes} (hcontent : Escaped content)
    (h : Accepts (.string role .none stack) rest) :
    Accepts (.string role .none stack) (content ++ rest) := by
  induction hcontent with
  | nil => exact h
  | @byte b bs hcontrol hquote hbackslash _ ih =>
    refine .cons ?_ ih
    simp [State.step, Escape.step, hquote, hbackslash, UInt8.not_lt.2 hcontrol]
  | @letter b c bs hletter _ ih =>
    refine .cons rfl (.cons ?_ ih)
    simp only [escapeLetters, List.mem_cons, Prod.mk.injEq, List.not_mem_nil, or_false] at hletter
    rcases hletter with h | h | h | h | h | h | h | h <;> rw [h.1] <;> rfl
  | @unit ds bs hlength hhex _ ih =>
    obtain ⟨a, b, c, d, rfl⟩ := List.length_eq_four.1 hlength
    simp only [List.forall_mem_cons] at hhex
    obtain ⟨ha, hb, hc, hd, -⟩ := hhex
    have hdigit : ∀ {left : Nat} {x : UInt8}, isHexDigit x = true →
        (State.string role (.hex (left + 1) true) stack).step x =
          .ok (.string role (.hex left true) stack) := by
      intro left x hx
      simp [State.step, Escape.step, hx]
    have hlast : (State.string role (.hex 0 true) stack).step d =
        .ok (.string role .none stack) := by
      simp [State.step, Escape.step, hd]
    exact .cons rfl (.cons rfl (.cons (hdigit ha) (.cons (hdigit hb) (.cons (hdigit hc)
      (.cons hlast ih)))))

/-- The state at which a phrase may come. -/
def State.before (stack : List Bracket) : Phrase Literal → State
  | .value _ => .value stack
  | .items _ => .arrayStart stack
  | .moreItems _ => .arrayNext stack
  | .members _ => .objectStart stack
  | .moreMembers _ => .objectNext stack
  | .member .. => .key stack
  | .colon _ => .colon stack

/-- The state after a phrase: a key and what follows it end inside their object. -/
def State.following (stack : List Bracket) : Phrase Literal → State
  | .member .. | .colon _ => .objectNext stack
  | _ => .afterValue stack

theorem State.between_before (stack : List Bracket) (p : Phrase Literal) :
    (before stack p).Between := by
  cases p <;> trivial

/-- What may come after a phrase may come after a spelling of it. -/
theorem accepts_of_spells {p : Phrase Literal} (h : Spells Encloses p bs rest)
    (stack : List Bracket) (hrest : Accepts (.following stack p) rest) :
    Accepts (.before stack p) bs := by
  induction h generalizing stack with
  | space hb _ ih =>
    exact .cons (State.step_space (State.between_before stack _) hb) (ih _ hrest)
  | @word w t hw rest =>
    simp only [words, List.mem_cons, Prod.mk.injEq, List.not_mem_nil, or_false] at hw
    rcases hw with ⟨rfl, rfl⟩ | ⟨rfl, rfl⟩ | ⟨rfl, rfl⟩
    · exact .cons rfl (.cons rfl (.cons rfl (.cons rfl hrest)))
    · exact .cons rfl (.cons rfl (.cons rfl (.cons rfl hrest)))
    · exact .cons rfl (.cons rfl (.cons rfl (.cons rfl (.cons rfl hrest))))
  | number l rest => exact accepts_literal l hrest
  | string h rest => exact .cons rfl (accepts_content h (.cons rfl hrest))
  | array _ ih => exact .cons rfl (ih _ hrest)
  | object _ ih => exact .cons rfl (ih _ hrest)
  | noItems rest => exact .cons rfl hrest
  | @firstItem t ts b bs mid rest hb h hs ih ihs =>
    have hend : b ≠ 0x5D := by
      rintro rfl
      cases h.startsWith hb
    have hsame : (State.arrayStart stack).step b = (State.value (.array :: stack)).step b := by
      simp [State.step, State.between, State.structural, hb, hend]
    obtain ⟨s, hstep, hs⟩ := (ih (.array :: stack) (ihs _ hrest)).exists_step
    exact .cons (hsame.trans hstep) hs
  | endItems rest => exact .cons rfl hrest
  | nextItem _ _ ih ihs => exact .cons rfl (ih (.array :: stack) (ihs _ hrest))
  | noMembers rest => exact .cons rfl hrest
  | firstMember hb h hs ih ihs =>
    obtain rfl : _ = 0x22 := h.startsWith hb
    obtain ⟨s, hstep, hs⟩ := (ih _ (ihs _ hrest)).exists_step
    exact .cons hstep hs
  | endMembers rest => exact .cons rfl hrest
  | nextMember _ _ ih ihs => exact .cons rfl (ih _ (ihs _ hrest))
  | member hkey _ ih => exact .cons rfl (accepts_content hkey (.cons rfl (ih _ hrest)))
  | colon _ ih => exact .cons rfl (ih (.object :: stack) hrest)

/-! ## What is accepted is spelled -/

/-- The content that comes, after what was read of an escape, has the form of one. -/
def Escape.Opens (content : Bytes) : Escape → Prop
  | .none => Escaped content
  | .opened => Escaped (0x5C :: content)
  | .hex left valid => valid = true ∧ ∃ ds bs, content = ds ++ bs ∧ ds.length = left + 1 ∧
      (∀ b ∈ ds, isHexDigit b = true) ∧ Escaped bs

/-- After a value inside these brackets, the bytes end the whole text. -/
def After : List Bracket → Bytes → Prop
  | [], rest => ∀ b ∈ rest, isSpace b = true
  | .array :: stack, rest => ∃ ts mid, Spells Encloses (.moreItems ts) rest mid ∧ After stack mid
  | .object :: stack, rest => ∃ ms mid, Spells Encloses (.moreMembers ms) rest mid ∧
      After stack mid

/-- The bytes start with a value, and then end the whole text. -/
def Awaits (stack : List Bracket) (bs : Bytes) : Prop :=
  ∃ t mid, Spells Encloses (.value t) bs mid ∧ After stack mid

/-- These bytes may come at a state for the whole to be a JSON text. -/
def State.Completes : State → Bytes → Prop
  | .value stack, bs => Awaits stack bs
  | .arrayStart stack, bs => ∃ ts mid, Spells Encloses (.items ts) bs mid ∧ After stack mid
  | .objectStart stack, bs => ∃ ms mid, Spells Encloses (.members ms) bs mid ∧ After stack mid
  | .arrayNext stack, bs => After (.array :: stack) bs
  | .objectNext stack, bs => After (.object :: stack) bs
  | .key stack, bs => ∃ key t mid, Spells Encloses (.member key t) bs mid ∧
      After (.object :: stack) mid
  | .colon stack, bs => ∃ t mid, Spells Encloses (.colon t) bs mid ∧ After (.object :: stack) mid
  | .literal left stack, bs => ∃ mid, bs = left ++ mid ∧ After stack mid
  | .number phase stack, bs => ∃ ds mid, bs = ds ++ mid ∧ phase.Completes ds ∧ After stack mid
  | .string .key escape stack, bs => ∃ content mid, bs = content ++ 0x22 :: mid ∧
      escape.Opens content ∧ ∃ t rest, Spells Encloses (.colon t) mid rest ∧
        After (.object :: stack) rest
  | .string .value escape stack, bs => ∃ content mid, bs = content ++ 0x22 :: mid ∧
      escape.Opens content ∧ After stack mid
  | .done, bs => ∀ b ∈ bs, isSpace b = true

/-- A byte of the content of a string, before content that has the form of one. -/
theorem Escape.opens_of_step {e e' : Escape} {content : Bytes} (h : e.step b = .ok (some e'))
    (hopens : e'.Opens content) : e.Opens (b :: content) := by
  cases e with
  | none =>
    simp only [step] at h
    split_ifs at h with hquote hbackslash hcontrol
    · cases h
    · obtain rfl := Option.some.inj (Except.ok.inj h)
      exact hbackslash ▸ hopens
    · obtain rfl := Option.some.inj (Except.ok.inj h)
      exact .byte (UInt8.not_lt.1 hcontrol) hquote hbackslash hopens
  | opened =>
    simp only [step] at h
    split_ifs at h with hu hletter
    · obtain rfl := Option.some.inj (Except.ok.inj h)
      obtain ⟨-, ds, bs, rfl, hlength, hhex, hescaped⟩ := hopens
      exact hu ▸ .unit hlength hhex hescaped
    · obtain rfl := Option.some.inj (Except.ok.inj h)
      exact .letter (mem_escapeLetters hletter) hopens
  | hex left valid =>
    cases left with
    | zero =>
      simp only [step] at h
      split_ifs at h with hb
      obtain rfl := Option.some.inj (Except.ok.inj h)
      obtain ⟨hvalid, hb⟩ := Bool.and_eq_true_iff.1 hb
      exact ⟨hvalid, [b], content, rfl, rfl, by simpa using hb, hopens⟩
    | succ left =>
      obtain rfl := Option.some.inj (Except.ok.inj h)
      obtain ⟨hvalid, ds, bs, rfl, hlength, hhex, hescaped⟩ := hopens
      obtain ⟨hvalid, hb⟩ := Bool.and_eq_true_iff.1 hvalid
      exact ⟨hvalid, b :: ds, bs, rfl, by rw [List.length_cons, hlength],
        List.forall_mem_cons.2 ⟨hb, hhex⟩, hescaped⟩

theorem Escape.step_eq_none {e : Escape} (h : e.step b = .ok Option.none) :
    b = 0x22 ∧ e = .none := by
  cases e with
  | none =>
    simp only [step] at h
    split_ifs at h with hquote
    · exact ⟨hquote, rfl⟩
    all_goals cases h
  | opened =>
    simp only [step] at h
    split_ifs at h <;> cases h
  | hex left valid =>
    cases left with
    | zero =>
      simp only [step] at h
      split_ifs at h
      cases h
    | succ left => cases h

theorem After.space (hb : isSpace b = true) (h : After stack rest) : After stack (b :: rest) := by
  cases stack with
  | nil => exact List.forall_mem_cons.2 ⟨hb, h⟩
  | cons bracket stack =>
    cases bracket <;>
    · obtain ⟨ts, mid, hspells, h⟩ := h
      exact ⟨ts, mid, .space hb hspells, h⟩

theorem State.completes_space (hs : s.Between) (hb : isSpace b = true) (h : s.Completes bs) :
    s.Completes (b :: bs) := by
  cases s with
  | literal | number | string => exact hs.elim
  | done => exact List.forall_mem_cons.2 ⟨hb, h⟩
  | arrayNext | objectNext => exact After.space hb h
  | key =>
    obtain ⟨key, t, mid, hspells, h⟩ := h
    exact ⟨key, t, mid, .space hb hspells, h⟩
  | value | arrayStart | objectStart | colon =>
    obtain ⟨ts, mid, hspells, h⟩ := h
    exact ⟨ts, mid, .space hb hspells, h⟩

theorem State.completes_afterValue : (afterValue stack).Completes bs ↔ After stack bs := by
  rcases stack with _ | ⟨_ | _, _⟩ <;> rfl

theorem exists_word {left : Bytes} (h : literalTail? b = some left) :
    ∃ t, (b :: left, t) ∈ words := by
  unfold literalTail? at h
  split_ifs at h with hnull htrue hfalse <;> obtain rfl := Option.some.inj h
  · exact ⟨.null, by simp [words, hnull]⟩
  · exact ⟨.bool true, by simp [words, htrue]⟩
  · exact ⟨.bool false, by simp [words, hfalse]⟩

theorem awaits_of_startValue (h : startValue stack b = .ok s) (hs : s.Completes bs) :
    Awaits stack (b :: bs) := by
  unfold startValue at h
  split_ifs at h with harray hobject hquote
  · obtain rfl := Except.ok.inj h
    obtain ⟨ts, mid, hspells, hafter⟩ := hs
    exact ⟨.array ts, mid, harray ▸ .array hspells, hafter⟩
  · obtain rfl := Except.ok.inj h
    obtain ⟨ms, mid, hspells, hafter⟩ := hs
    exact ⟨.object ms, mid, hobject ▸ .object hspells, hafter⟩
  · obtain rfl := Except.ok.inj h
    obtain ⟨content, mid, rfl, hopens, hafter⟩ := hs
    rw [hquote]
    exact ⟨.string "", mid, .string hopens mid, hafter⟩
  · split at h
    · next phase hphase =>
      obtain rfl := Except.ok.inj h
      obtain ⟨ds, mid, rfl, hds, hafter⟩ := hs
      obtain ⟨l, hl⟩ := Numeral.Phase.exists_literal_of_start? hphase hds
      refine ⟨.number l, mid, ?_, hafter⟩
      rw [← List.cons_append, ← hl]
      exact .number l mid
    · split at h
      · next left hleft =>
        obtain rfl := Except.ok.inj h
        obtain ⟨mid, rfl, hafter⟩ := hs
        obtain ⟨t, hword⟩ := exists_word hleft
        exact ⟨t, mid, .word hword mid, hafter⟩
      · cases h

/-- What may come at the state after a byte between tokens may come after the byte. -/
theorem State.completes_structural (h : s.structural b = .ok s') (hs : s'.Completes bs) :
    s.Completes (b :: bs) := by
  cases s with
  | value stack => exact awaits_of_startValue h hs
  | arrayStart stack =>
    simp only [structural] at h
    split_ifs at h with hend
    · obtain rfl := Except.ok.inj h
      exact ⟨[], bs, hend ▸ .noItems bs, completes_afterValue.1 hs⟩
    · obtain ⟨t, mid, hspells, ts, mid', hmore, hafter⟩ := awaits_of_startValue h hs
      exact ⟨t :: ts, mid', hspells.items hmore, hafter⟩
  | objectStart stack =>
    simp only [structural] at h
    split_ifs at h with hend hquote
    · obtain rfl := Except.ok.inj h
      exact ⟨[], bs, hend ▸ .noMembers bs, completes_afterValue.1 hs⟩
    · obtain rfl := Except.ok.inj h
      obtain ⟨content, mid, rfl, hopens, t, rest, hspells, ms, rest', hmore, hafter⟩ := hs
      have hmember : Spells Encloses (.member "" t) (0x22 :: (content ++ 0x22 :: mid)) rest :=
        .member hopens hspells
      exact ⟨("", t) :: ms, rest', hquote ▸ hmember.members hmore, hafter⟩
  | arrayNext stack =>
    simp only [structural] at h
    split_ifs at h with hcomma hend
    · obtain rfl := Except.ok.inj h
      obtain ⟨t, mid, hspells, ts, mid', hmore, hafter⟩ := hs
      exact ⟨t :: ts, mid', hcomma ▸ .nextItem hspells hmore, hafter⟩
    · obtain rfl := Except.ok.inj h
      exact ⟨[], bs, hend ▸ .endItems bs, completes_afterValue.1 hs⟩
  | objectNext stack =>
    simp only [structural] at h
    split_ifs at h with hcomma hend
    · obtain rfl := Except.ok.inj h
      obtain ⟨key, t, mid, hspells, ms, mid', hmore, hafter⟩ := hs
      exact ⟨(key, t) :: ms, mid', hcomma ▸ .nextMember hspells hmore, hafter⟩
    · obtain rfl := Except.ok.inj h
      exact ⟨[], bs, hend ▸ .endMembers bs, completes_afterValue.1 hs⟩
  | key stack =>
    simp only [structural] at h
    split_ifs at h with hquote
    obtain rfl := Except.ok.inj h
    obtain ⟨content, mid, rfl, hopens, t, rest, hspells, hafter⟩ := hs
    rw [hquote]
    exact ⟨"", t, rest, .member hopens hspells, hafter⟩
  | colon stack =>
    simp only [structural] at h
    split_ifs at h with hb
    obtain rfl := Except.ok.inj h
    obtain ⟨t, mid, hspells, hafter⟩ := hs
    exact ⟨t, mid, hb ▸ .colon hspells, hafter⟩
  | literal | number | string | done => cases h

theorem State.completes_between (hbetween : s.Between) (h : s.between b = .ok s')
    (hs : s'.Completes bs) : s.Completes (b :: bs) := by
  unfold between at h
  split_ifs at h with hb
  · obtain rfl := Except.ok.inj h
    exact completes_space hbetween hb hs
  · exact completes_structural h hs

/-- A value that ended before the byte. -/
theorem after_of_between (h : (State.afterValue stack).between b = .ok s) (hs : s.Completes bs) :
    After stack (b :: bs) :=
  State.completes_afterValue.1
    (State.completes_between (State.between_afterValue stack) h hs)

/-- What may come at the state after a byte may come, after the byte, at the state before it. -/
theorem State.completes_cons (h : s.step b = .ok s') (hs : s'.Completes bs) :
    s.Completes (b :: bs) := by
  cases s with
  | literal left stack =>
    cases left with
    | nil => exact ⟨b :: bs, rfl, after_of_between h hs⟩
    | cons l left =>
      simp only [step] at h
      split_ifs at h with hb hleft <;> obtain rfl := Except.ok.inj h
      · obtain rfl := List.isEmpty_iff.1 hleft
        exact ⟨bs, by rw [hb]; rfl, completes_afterValue.1 hs⟩
      · obtain ⟨mid, rfl, hafter⟩ := hs
        exact ⟨mid, by rw [hb]; rfl, hafter⟩
  | number phase stack =>
    simp only [step] at h
    split at h
    · next phase' hstep =>
      obtain rfl := Except.ok.inj h
      obtain ⟨ds, mid, rfl, hds, hafter⟩ := hs
      exact ⟨b :: ds, mid, rfl, Numeral.Phase.completes_cons hstep hds, hafter⟩
    · next hended =>
      exact ⟨[], b :: bs, rfl, Numeral.Phase.completes_nil (Numeral.Phase.complete_of_ended hended),
        after_of_between h hs⟩
    · cases h
  | string role escape stack =>
    simp only [step] at h
    split at h
    · cases h
    · next escape' hstep =>
      obtain rfl := Except.ok.inj h
      cases role with
      | key =>
        obtain ⟨content, mid, rfl, hopens, hrest⟩ := hs
        exact ⟨b :: content, mid, rfl, Escape.opens_of_step hstep hopens, hrest⟩
      | value =>
        obtain ⟨content, mid, rfl, hopens, hrest⟩ := hs
        exact ⟨b :: content, mid, rfl, Escape.opens_of_step hstep hopens, hrest⟩
    · next hstep =>
      obtain ⟨rfl, rfl⟩ := Escape.step_eq_none hstep
      cases role with
      | key =>
        obtain rfl := Except.ok.inj h
        exact ⟨[], bs, rfl, .nil, hs⟩
      | value =>
        obtain rfl := Except.ok.inj h
        exact ⟨[], bs, rfl, .nil, completes_afterValue.1 hs⟩
  | _ => exact completes_between trivial h hs

/-- Where a text may end, nothing need come. -/
theorem State.completes_nil (h : s.finish = .ok ()) : s.Completes [] := by
  cases s with
  | done => simp [Completes]
  | number phase stack =>
    simp only [finish] at h
    split_ifs at h with hcomplete
    rcases stack with _ | ⟨_ | _, _⟩
    · exact ⟨[], [], rfl, Numeral.Phase.completes_nil hcomplete, by simp [After]⟩
    all_goals cases h
  | _ => cases h

/-- Blanks may end a text. -/
theorem accepts_done (hrest : ∀ b ∈ rest, isSpace b = true) : Accepts .done rest := by
  induction rest with
  | nil => exact .nil rfl
  | cons b rest ih =>
    obtain ⟨hb, hrest⟩ := List.forall_mem_cons.1 hrest
    exact .cons (State.step_space trivial hb) (ih hrest)

theorem completes_of_accepts (h : Accepts s bs) : s.Completes bs := by
  induction bs generalizing s with
  | nil => exact State.completes_nil h.ends
  | cons b bs ih =>
    obtain ⟨s', hstep, hs'⟩ := h.exists_step
    exact State.completes_cons hstep (ih hs')

end Skim

/-- What is accepted is one JSON text, and nothing else is. -/
theorem skim_eq_ok_iff {bs : Bytes} : skim bs = .ok () ↔ IsText bs := by
  have hskim : skim bs = .ok () ↔ Skim.Accepts (.value []) bs := by
    unfold skim Skim.Accepts Yields
    cases feed Skim.State.step (.value []) bs with
    | error e => simp
    | ok s => cases h : s.finish <;> simp [h]
  rw [hskim]
  refine ⟨Skim.completes_of_accepts, fun ⟨t, rest, hspells, hrest⟩ => ?_⟩
  exact Skim.accepts_of_spells hspells [] (Skim.accepts_done hrest)

end FramedRelay.Json
