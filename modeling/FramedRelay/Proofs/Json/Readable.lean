import FramedRelay.Proofs.Json.Ordered
import FramedRelay.Proofs.Json.Reading
import FramedRelay.Proofs.Json.Skimming

/-!
# Texts that are read

A JSON text is read if fewer than `depthLimit` brackets are open at once, no key of it is
`embeddedKey`, and each number can be kept; what it is read as is its value, with the numbers that
are kept and the members in the order of their keys (`read_of_denotes`).

That a text is read is shown along its spelling, as for `skim`: whatever is read after a phrase, is
read with the phrase before it (`Read.readsOn_of_spells`). The value of a phrase ends up on the
stack, so the states before and after it are spelled out for each kind of phrase (`Read.ReadsOn`).
-/

namespace FramedRelay.Json

/-- The parts of a phrase are within bounds, below the brackets that are already open there. -/
def Phrase.Within {ν : Type} (P : ν → Prop) (K : String → Prop) (depth : ℕ) : Phrase ν → Prop
  | .value t | .colon t => t.Within P K depth
  | .items ts | .moreItems ts => ∀ t ∈ ts, t.Within P K depth
  | .members ms | .moreMembers ms => (∀ m ∈ ms, K m.1) ∧ ∀ m ∈ ms, m.2.Within P K depth
  | .member key t => K key ∧ t.Within P K depth

namespace Read

variable {nested : String → Except Error Value} {v x : Value} {s s' : State} {stack : List Frame}
  {b : UInt8} {bs rest : Bytes}

/-- From this state the bytes are read to their end as `v`. -/
abbrev Gives (nested : String → Except Error Value) (v : Value) (s : State) (bs : Bytes) : Prop :=
  Yields (State.step nested) State.finish v s bs

theorem State.step_eq_between (hs : s.Between) (b : UInt8) :
    s.step nested b = s.between nested b := by
  cases s with
  | literal | number | string => exact hs.elim
  | _ => rfl

theorem Gives.space (hs : s.Between) (hb : isSpace b = true) (h : Gives nested v s bs) :
    Gives nested v s (b :: bs) :=
  .cons (by rw [State.step_eq_between hs, State.between, if_pos hb]) h

/-! ## After a value -/

/-- The state after a value, inside brackets of which the innermost is no embedded object. -/
def State.next (x : Value) : List Frame → State
  | [] => .done x
  | .array items :: stack => .arrayNext (x :: items) stack
  | .object members key :: stack => .objectNext (members.insert key x) stack
  | .embedded :: stack => .embeddedNext x stack

theorem afterValue_eq (fault : Cause → Fault) (x : Value) (h : atEmbedded stack = false) :
    afterValue nested fault x stack = .ok (.next x stack) := by
  rcases stack with _ | ⟨_ | _ | _, _⟩
  · rfl
  · rfl
  · rfl
  · cases h

/-- A byte that ends a value. -/
theorem Gives.ended {fault : Cause → Fault}
    (hstep : s.step nested b = afterValue nested fault x stack) (hstack : atEmbedded stack = false)
    (h : Gives nested v (.next x stack) rest) : Gives nested v s (b :: rest) :=
  .cons (hstep.trans (afterValue_eq fault x hstack)) h

theorem State.between_next (x : Value) (stack : List Frame) : (next x stack).Between := by
  rcases stack with _ | ⟨_ | _ | _, _⟩ <;> trivial

/-- No byte that is taken after a value goes on with a number. -/
theorem continuesNumber_of_next (h : (State.next x stack).step nested b = .ok s) :
    continuesNumber b = false := by
  by_contra hb
  obtain ⟨hspace, hno⟩ := not_after_of_continuesNumber (by simpa using hb)
  rw [State.step_eq_between (State.between_next x stack)] at h
  rcases stack with _ | ⟨_ | _ | _, _⟩ <;>
    simp [State.next, State.between, State.structural, hspace, hno] at h

/-! ## Numbers -/

section

variable {n n' : Numeral} {k : Number}

/-- A number that is complete may end where the text may go on after a value. -/
theorem gives_number (hstack : atEmbedded stack = false) (hcomplete : n.phase.complete = true)
    (hvalue : n.value? = some k) (h : Gives nested v (.next (.number k) stack) rest) :
    Gives nested v (.number n stack) rest := by
  have hnumber : numberValue n = .ok (.number k) := by rw [numberValue, hvalue]
  cases rest with
  | nil =>
    refine .nil ?_
    have hfinish := h.ends
    rcases stack with _ | ⟨_ | _ | _, _⟩
    · simpa [State.finish, hcomplete, hnumber, State.next] using hfinish
    all_goals cases hfinish
  | cons b rest =>
    obtain ⟨s, hstep, hs⟩ := h.exists_step
    have hended : n.step b = .ended := by
      rw [Numeral.step, Numeral.Phase.step_eq_ended hcomplete (continuesNumber_of_next hstep)]
    rw [State.step_eq_between (State.between_next _ stack)] at hstep
    refine .cons ?_ hs
    simp only [State.step, hended, hnumber, afterValue_eq _ _ hstack]
    exact hstep

theorem gives_digits {ds : Bytes} (hrun : n.run? ds = some n')
    (h : Gives nested v (.number n' stack) rest) :
    Gives nested v (.number n stack) (ds ++ rest) := by
  induction ds generalizing n with
  | nil =>
    obtain rfl := Option.some.inj hrun
    exact h
  | cons b ds ih =>
    simp only [Numeral.run?] at hrun
    split at hrun
    · next n'' hstep => exact .cons (by simp only [State.step, hstep]) (ih hrun)
    · cases hrun

theorem gives_literal {l : Literal} (hstack : atEmbedded stack = false) (hkeeps : l.Keeps k)
    (h : Gives nested v (.next (.number k) stack) rest) :
    Gives nested v (.value stack) (l.bytes ++ rest) := by
  obtain ⟨n', hwhole, hvalue⟩ := Option.bind_eq_some_iff.1 hkeeps
  obtain ⟨b, bs, hbytes, hb⟩ := l.bytes_eq_cons
  rw [hbytes] at hwhole ⊢
  obtain ⟨hrun, hcomplete⟩ := Option.filter_eq_some_iff.1 hwhole
  obtain ⟨n, hstart, hrun⟩ := Option.bind_eq_some_iff.1 hrun
  refine .cons ?_ (gives_digits hrun (gives_number hstack hcomplete hvalue h))
  obtain ⟨hspace, hno⟩ := not_other_of_number hb
  simp [State.step, State.between, State.structural, startValue, hspace, hno, hstart]

end

/-! ## Strings -/

/-- Four hexadecimal digits are gathered. -/
theorem gives_unit {role : Role} {ds : Bytes} {u : ℕ} {reversed : Bytes} {lead? : Option ℕ}
    {text : Text} (hds : IsUnit ds u)
    (hpush : ∀ t : Text, t.reversed = reversed → t.pushUnit lead? u = .ok text)
    (h : Gives nested v (.string role text stack) bs) :
    Gives nested v (.string role ⟨reversed, .hex lead? 3 (some 0)⟩ stack) (ds ++ bs) := by
  obtain ⟨a, b, c, d, rfl⟩ := List.length_eq_four.1 hds.length_eq
  have hhex := hds.isHexDigit
  simp only [List.forall_mem_cons] at hhex
  obtain ⟨ha, hb, hc, hd, -⟩ := hhex
  have hdigit : ∀ {left unit : ℕ} {x : UInt8}, isHexDigit x = true →
      (State.string role ⟨reversed, .hex lead? (left + 1) (some unit)⟩ stack).step nested x =
        .ok (.string role ⟨reversed, .hex lead? left (some (16 * unit + hexValue x))⟩ stack) := by
    intro left unit x hx
    simp [State.step, Text.step, Text.extendUnit, hx]
  have hlast : ∀ {unit : ℕ}, 16 * unit + hexValue d = u →
      (State.string role ⟨reversed, .hex lead? 0 (some unit)⟩ stack).step nested d =
        .ok (.string role text stack) := by
    intro unit hunit
    simp only [State.step, Text.step, Text.extendUnit, hd, if_true, hunit]
    rw [hpush _ rfl]
    rfl
  exact .cons (hdigit ha) (.cons (hdigit hb) (.cons (hdigit hc)
    (.cons (hlast hds.hexadecimal_eq) h)))

/-- The content of a string literal is gathered as the bytes that it stands for. -/
theorem gives_content {role : Role} {content out : Bytes} (hcontent : Unescapes content out)
    (reversed : Bytes)
    (h : Gives nested v (.string role ⟨out.reverse ++ reversed, .none⟩ stack) rest) :
    Gives nested v (.string role ⟨reversed, .none⟩ stack) (content ++ rest) := by
  induction hcontent generalizing reversed with
  | nil => exact h
  | @byte b bs out hcontrol hquote hbackslash _ ih =>
    refine .cons ?_ (ih (b :: reversed) (by simpa using h))
    simp [State.step, Text.step, hquote, hbackslash, UInt8.not_lt.2 hcontrol]
  | @letter b c bs out hletter _ ih =>
    refine .cons rfl (.cons ?_ (ih (c :: reversed) (by simpa using h)))
    simp only [escapeLetters, List.mem_cons, Prod.mk.injEq, List.not_mem_nil, or_false] at hletter
    rcases hletter with h | h | h | h | h | h | h | h <;> rw [h.1, h.2] <;> rfl
  | @unit ds bs out u hds hlead htrail _ ih =>
    have hpush : ∀ t : Text, t.reversed = reversed → t.pushUnit none u =
        .ok ⟨(String.utf8EncodeChar (Char.ofNat u)).reverse ++ reversed, .none⟩ := by
      rintro t rfl
      exact (if_neg htrail).trans (if_neg hlead)
    rw [List.cons_append, List.cons_append, List.append_assoc]
    exact .cons rfl (.cons rfl (gives_unit hds hpush (ih _ (by simpa using h))))
  | @pair ds es bs out u w hds hes hlead htrail _ ih =>
    have hnotTrail : ¬IsTrail u := fun h => absurd (h.1.trans hlead.2) (by decide)
    have hfirst : ∀ t : Text, t.reversed = reversed →
        t.pushUnit none u = .ok ⟨reversed, .needPair u⟩ := by
      rintro t rfl
      exact (if_neg hnotTrail).trans (if_pos hlead)
    have hsecond : ∀ t : Text, t.reversed = reversed → t.pushUnit (some u) w =
        .ok ⟨(String.utf8EncodeChar (Char.ofNat (pairCode u w))).reverse ++ reversed, .none⟩ := by
      rintro t rfl
      exact if_pos htrail
    have hpaired := gives_unit hes hsecond (ih _ (by simpa using h))
    have hneed : Gives nested v (.string role ⟨reversed, .needPair u⟩ stack)
        (0x5C :: 0x75 :: (es ++ (bs ++ rest))) := .cons rfl (.cons rfl hpaired)
    simp only [List.cons_append, List.append_assoc]
    exact .cons rfl (.cons rfl (gives_unit hds hfirst hneed))

theorem finish?_encode (str : String) (escape : Escape) :
    Text.finish? ⟨(Utf8.encode str).reverse ++ [], escape⟩ = some str := by
  rw [Text.finish?, List.append_nil, List.reverse_reverse, Utf8.decode?_encode]

/-- A string literal is read as its text. -/
theorem gives_string {content : Bytes} {str : String} (hstack : atEmbedded stack = false)
    (hcontent : Quotes content str) (h : Gives nested v (.next (.string str) stack) rest) :
    Gives nested v (.string .value { } stack) (content ++ 0x22 :: rest) := by
  refine gives_content hcontent [] (.cons ?_ h)
  simp only [State.step, Text.step, if_true, finish?_encode, afterValue_eq _ _ hstack]

/-- A key that is not `embeddedKey` opens a member. -/
theorem gives_key {content : Bytes} {key : String} {members : Members} {first : Bool}
    (hkey : key ≠ embeddedKey) (hcontent : Quotes content key)
    (h : Gives nested v (.colon (.object members key) stack) rest) :
    Gives nested v (.string (.key members first) { } stack) (content ++ 0x22 :: rest) := by
  refine gives_content hcontent [] (.cons ?_ h)
  simp only [State.step, Text.step, if_true, finish?_encode]
  simp [openMember, hkey]

/-! ## Phrases -/

/-- So many more brackets can be opened inside those that are open, and the innermost of these is no
embedded object. -/
structure Open (stack : List Frame) (depth : ℕ) : Prop where
  atEmbedded : atEmbedded stack = false
  room : stack.length + depth < depthLimit

theorem Open.array {depth : ℕ} (h : Open stack (depth + 1)) (items : List Value) :
    Open (.array items :: stack) depth :=
  ⟨rfl, by have := h.room; rw [List.length_cons]; omega⟩

theorem Open.object {depth : ℕ} (h : Open stack (depth + 1)) (members : Members) (key : String) :
    Open (.object members key :: stack) depth :=
  ⟨rfl, by have := h.room; rw [List.length_cons]; omega⟩

theorem Open.descend {depth : ℕ} (h : Open stack (depth + 1)) (state : List Frame → State) :
    descend state stack = .ok (state stack) :=
  if_pos (by have := h.room; omega)

/-- A state where a key may come, of an object with these members. -/
structure AwaitsKey (nested : String → Except Error Value) (members : Members)
    (stack : List Frame) (s : State) : Prop where
  between : s.Between
  exists_quote : ∃ first, s.structural nested 0x22 = .ok (.string (.key members first) { } stack)

/-- Whatever is read after a phrase, is read with these bytes of the phrase before it. What is kept
of numbers is given by `keep`. -/
def ReadsOn (nested : String → Except Error Value) (keep : Literal → Number) (v : Value)
    (depth : ℕ) : Phrase Literal → Bytes → Bytes → Prop
  | .value t, bs, rest => ∀ stack, Open stack depth →
      Gives nested v (.next (t.ordered keep) stack) rest → Gives nested v (.value stack) bs
  | .items ts, bs, rest => ∀ stack, Open stack (depth + 1) →
      Gives nested v (.next (.array (ts.map (·.ordered keep))) stack) rest →
      Gives nested v (.arrayStart stack) bs
  | .moreItems ts, bs, rest => ∀ stack items, Open stack (depth + 1) →
      Gives nested v (.next (.array (items.reverse ++ ts.map (·.ordered keep))) stack) rest →
      Gives nested v (.arrayNext items stack) bs
  | .members ms, bs, rest => ∀ stack, Open stack (depth + 1) →
      Gives nested v
        (.next (.object (Members.ofList (ms.map fun m => (m.1, m.2.ordered keep)))) stack) rest →
      Gives nested v (.objectStart stack) bs
  | .moreMembers ms, bs, rest => ∀ stack members, Open stack (depth + 1) →
      Gives nested v
        (.next (.object (extend members (ms.map fun m => (m.1, m.2.ordered keep)))) stack) rest →
      Gives nested v (.objectNext members stack) bs
  | .member key t, bs, rest => ∀ stack members s, Open stack (depth + 1) →
      AwaitsKey nested members stack s →
      Gives nested v (.objectNext (members.insert key (t.ordered keep)) stack) rest →
      Gives nested v s bs
  | .colon t, bs, rest => ∀ stack members key, Open stack (depth + 1) →
      Gives nested v (.objectNext (members.insert key (t.ordered keep)) stack) rest →
      Gives nested v (.colon (.object members key) stack) bs

/-- The state after a comma in an array differs from that where a value must come by what it says
of a closing bracket. -/
theorem gives_arrayMore {items : List Value}
    (h : Gives nested v (.value (.array items :: stack)) bs) :
    Gives nested v (.arrayMore items stack) bs := by
  induction bs with
  | nil => cases h.ends
  | cons b bs ih =>
    obtain ⟨s, hstep, hs⟩ := h.exists_step
    cases hb : isSpace b with
    | true =>
      simp only [State.step, State.between, hb, if_true, Except.ok.injEq] at hstep
      exact .space trivial hb (ih (hstep ▸ hs))
    | false =>
      refine .cons ?_ hs
      by_cases hend : b = 0x5D
      · subst hend
        cases hstep
      · simpa [State.step, State.between, State.structural, hb, hend] using hstep

section

variable {keep : Literal → Number} {depth : ℕ} {p : Phrase Literal} {mid : Bytes}

theorem ReadsOn.space (hb : isSpace b = true) (h : ReadsOn nested keep v depth p bs rest) :
    ReadsOn nested keep v depth p (b :: bs) rest := by
  cases p with
  | value | items | members => exact fun stack ho hr => .space trivial hb (h stack ho hr)
  | moreItems | moreMembers => exact fun stack _ ho hr => .space trivial hb (h stack _ ho hr)
  | member => exact fun stack _ s ho hs hr => .space hs.between hb (h stack _ s ho hs hr)
  | colon => exact fun stack _ _ ho hr => .space trivial hb (h stack _ _ ho hr)

theorem readsOn_word {w : Bytes} {t : Value Literal} (hw : (w, t) ∈ words) (rest : Bytes) :
    ReadsOn nested keep v depth (.value t) (w ++ rest) rest := by
  intro stack ho hr
  have hlast : afterValue nested .after (t.ordered keep) stack =
      .ok (.next (t.ordered keep) stack) := afterValue_eq .after _ ho.atEmbedded
  simp only [words, List.mem_cons, Prod.mk.injEq, List.not_mem_nil, or_false] at hw
  rcases hw with ⟨rfl, rfl⟩ | ⟨rfl, rfl⟩ | ⟨rfl, rfl⟩
  · exact .cons rfl (.cons rfl (.cons rfl (.cons hlast hr)))
  · exact .cons rfl (.cons rfl (.cons rfl (.cons hlast hr)))
  · exact .cons rfl (.cons rfl (.cons rfl (.cons rfl (.cons hlast hr))))

theorem ReadsOn.array {ts : List (Value Literal)}
    (h : ReadsOn nested keep v depth (.items ts) bs rest) :
    ReadsOn nested keep v (depth + 1) (.value (.array ts)) (0x5B :: bs) rest := by
  intro stack ho hr
  simp only [Value.ordered, Value.mapWith, Value.itemsWith_eq] at hr
  refine .cons ?_ (h stack ho hr)
  show startValue stack 0x5B = _
  simp [startValue, ho.atEmbedded, ho.descend]

theorem ReadsOn.object {ms : Members Literal}
    (h : ReadsOn nested keep v depth (.members ms) bs rest) :
    ReadsOn nested keep v (depth + 1) (.value (.object ms)) (0x7B :: bs) rest := by
  intro stack ho hr
  simp only [Value.ordered, Value.mapWith, Value.membersWith_eq] at hr
  refine .cons ?_ (h stack ho hr)
  show startValue stack 0x7B = _
  simp [startValue, ho.atEmbedded, ho.descend]

theorem readsOn_noItems (rest : Bytes) :
    ReadsOn nested keep v depth (.items []) (0x5D :: rest) rest := by
  intro stack ho hr
  exact .ended rfl ho.atEmbedded hr

theorem ReadsOn.firstItem {t : Value Literal} {ts : List (Value Literal)}
    (hspells : Spells Quotes (.value t) (b :: bs) mid) (hb : isSpace b = false)
    (h : ReadsOn nested keep v depth (.value t) (b :: bs) mid)
    (hs : ReadsOn nested keep v depth (.moreItems ts) mid rest) :
    ReadsOn nested keep v depth (.items (t :: ts)) (b :: bs) rest := by
  intro stack ho hr
  have hend : b ≠ 0x5D := by
    rintro rfl
    cases hspells.startsWith hb
  have hsame : (State.arrayStart stack).step nested b =
      (State.value (.array [] :: stack)).step nested b := by
    simp [State.step, State.between, State.structural, hb, hend]
  obtain ⟨s, hstep, hgives⟩ := (h _ (ho.array []) (hs stack [_] ho hr)).exists_step
  exact .cons (hsame.trans hstep) hgives

theorem readsOn_endItems (rest : Bytes) :
    ReadsOn nested keep v depth (.moreItems []) (0x5D :: rest) rest := by
  intro stack items ho hr
  rw [List.map_nil, List.append_nil] at hr
  exact .ended rfl ho.atEmbedded hr

theorem ReadsOn.nextItem {t : Value Literal} {ts : List (Value Literal)}
    (h : ReadsOn nested keep v depth (.value t) bs mid)
    (hs : ReadsOn nested keep v depth (.moreItems ts) mid rest) :
    ReadsOn nested keep v depth (.moreItems (t :: ts)) (0x2C :: bs) rest := by
  intro stack items ho hr
  have hmore : Gives nested v (.arrayNext (t.ordered keep :: items) stack) mid :=
    hs stack _ ho (by simpa using hr)
  exact .cons rfl (gives_arrayMore (h _ (ho.array items) hmore))

theorem readsOn_noMembers (rest : Bytes) :
    ReadsOn nested keep v depth (.members []) (0x7D :: rest) rest := by
  intro stack ho hr
  exact .ended rfl ho.atEmbedded hr

theorem ReadsOn.firstMember {key : String} {t : Value Literal} {ms : Members Literal}
    (h : ReadsOn nested keep v depth (.member key t) bs mid)
    (hs : ReadsOn nested keep v depth (.moreMembers ms) mid rest) :
    ReadsOn nested keep v depth (.members ((key, t) :: ms)) bs rest := by
  intro stack ho hr
  exact h stack [] (.objectStart stack) ho ⟨trivial, true, rfl⟩ (hs stack _ ho hr)

theorem readsOn_endMembers (rest : Bytes) :
    ReadsOn nested keep v depth (.moreMembers []) (0x7D :: rest) rest := by
  intro stack members ho hr
  exact .ended rfl ho.atEmbedded hr

theorem ReadsOn.nextMember {key : String} {t : Value Literal} {ms : Members Literal}
    (h : ReadsOn nested keep v depth (.member key t) bs mid)
    (hs : ReadsOn nested keep v depth (.moreMembers ms) mid rest) :
    ReadsOn nested keep v depth (.moreMembers ((key, t) :: ms)) (0x2C :: bs) rest := by
  intro stack members ho hr
  exact .cons rfl (h stack members (.objectMore members stack) ho ⟨trivial, false, rfl⟩
    (hs stack _ ho hr))

theorem ReadsOn.member {key : String} {t : Value Literal} {content : Bytes}
    (hkey : key ≠ embeddedKey) (hcontent : Quotes content key)
    (h : ReadsOn nested keep v depth (.colon t) bs rest) :
    ReadsOn nested keep v depth (.member key t) (0x22 :: (content ++ 0x22 :: bs)) rest := by
  intro stack members s ho hs hr
  obtain ⟨first, hquote⟩ := hs.exists_quote
  have hstep : s.step nested 0x22 = .ok (.string (.key members first) { } stack) :=
    (State.step_eq_between hs.between 0x22).trans hquote
  exact .cons hstep (gives_key hkey hcontent (h stack members key ho hr))

theorem ReadsOn.colon {t : Value Literal} (h : ReadsOn nested keep v depth (.value t) bs rest) :
    ReadsOn nested keep v depth (.colon t) (0x3A :: bs) rest := by
  intro stack members key ho hr
  exact .cons rfl (h _ (ho.object members key) hr)

/-- What is spelled is read, if each number can be kept. -/
theorem readsOn_of_spells (h : Spells Quotes p bs rest)
    (hp : p.Within (fun l => l.Keeps (keep l)) (· ≠ embeddedKey) depth) :
    ReadsOn nested keep v depth p bs rest := by
  induction h generalizing depth with
  | space hb _ ih => exact (ih hp).space hb
  | word hw rest => exact readsOn_word hw rest
  | number l rest =>
    cases hp with
    | number _ hkeeps => exact fun stack ho hr => gives_literal ho.atEmbedded hkeeps hr
  | string h rest => exact fun stack ho hr => .cons rfl (gives_string ho.atEmbedded h hr)
  | array _ ih =>
    cases hp with
    | array hts => exact (ih hts).array
  | object _ ih =>
    cases hp with
    | object hkeys hms => exact (ih ⟨hkeys, hms⟩).object
  | noItems rest => exact readsOn_noItems rest
  | firstItem hb h _ ih ihs =>
    obtain ⟨ht, hts⟩ := List.forall_mem_cons.1 hp
    exact (ih ht).firstItem h hb (ihs hts)
  | endItems rest => exact readsOn_endItems rest
  | nextItem _ _ ih ihs =>
    obtain ⟨ht, hts⟩ := List.forall_mem_cons.1 hp
    exact (ih ht).nextItem (ihs hts)
  | noMembers rest => exact readsOn_noMembers rest
  | firstMember _ _ _ ih ihs =>
    obtain ⟨hkey, hkeys⟩ := List.forall_mem_cons.1 hp.1
    obtain ⟨ht, hms⟩ := List.forall_mem_cons.1 hp.2
    exact (ih ⟨hkey, ht⟩).firstMember (ihs ⟨hkeys, hms⟩)
  | endMembers rest => exact readsOn_endMembers rest
  | nextMember _ _ ih ihs =>
    obtain ⟨hkey, hkeys⟩ := List.forall_mem_cons.1 hp.1
    obtain ⟨ht, hms⟩ := List.forall_mem_cons.1 hp.2
    exact (ih ⟨hkey, ht⟩).nextMember (ihs ⟨hkeys, hms⟩)
  | member hcontent _ ih => exact (ih hp.2).member hp.1 hcontent
  | colon _ ih => exact (ih hp).colon

end

/-- Blanks may end a text. -/
theorem gives_done (hrest : ∀ b ∈ rest, isSpace b = true) : Gives nested v (.done v) rest := by
  induction rest with
  | nil => exact .nil rfl
  | cons b rest ih =>
    obtain ⟨hb, hrest⟩ := List.forall_mem_cons.1 hrest
    exact .space trivial hb (ih hrest)

end Read

/-- A text within these bounds is read as its value, with what is kept of its numbers and with its
members as they are kept. -/
theorem read_of_denotes {keep : Literal → Number} {bs : Bytes} {t : Value Literal} {depth : ℕ}
    (h : Denotes bs t) (ht : t.Within (fun l => l.Keeps (keep l)) (· ≠ embeddedKey) depth)
    (hdepth : depth < depthLimit) : read bs = .ok (t.ordered keep) := by
  obtain ⟨rest, hspells, hrest⟩ := h
  have hreads : Read.ReadsOn (fun s => readNested bs.length (Utf8.encode s)) keep
      (t.ordered keep) depth (.value t) bs rest := Read.readsOn_of_spells hspells ht
  obtain ⟨s, hfeed, hfinish⟩ := hreads [] ⟨rfl, by simpa using hdepth⟩ (Read.gives_done hrest)
  simp only [read, readNested, readWith, hfeed, hfinish]

end FramedRelay.Json
