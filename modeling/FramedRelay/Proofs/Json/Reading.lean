import FramedRelay.Proofs.Json.Grammar
import FramedRelay.Proofs.Json.Matching
import FramedRelay.Proofs.Json.Numerals

/-!
# What reading a JSON text gives

A text that is read denotes a value, and what is read matches it, with of each number what is kept
(`exists_denotes_of_read`). This leaves out objects whose first key is `embeddedKey`, since such an
object stands for another value (`Value.IsEmbedded`).

The reader takes one byte after another, so the proof goes from the end of the text to its
beginning: `State.Completes` says in terms of the grammar what bytes may come at a state for the
whole text to be read as a value, and a byte that a state takes can be put before those that may
come at the state after it (`State.completes_cons`). The states inside a string have a like notion
(`Text.Closes`).
-/

namespace FramedRelay.Json

namespace Read

/-! ## Strings -/

/-- A character and the content after it stand for bytes. -/
def Follows (code : ℕ) (content out : Bytes) : Prop :=
  ∃ out', out = String.utf8EncodeChar (Char.ofNat code) ++ out' ∧ Unescapes content out'

/-- So many more hexadecimal digits come after those that denote `unit`, and then what is to come
after the number of all of them. -/
def Numbered (after : ℕ → Bytes → Bytes → Prop) (left unit : ℕ) (content out : Bytes) : Prop :=
  ∃ ds bs, content = ds ++ bs ∧ ds.length = left ∧ (∀ b ∈ ds, isHexDigit b = true) ∧
    after (ds.foldl (fun n b => 16 * n + hexValue b) unit) bs out

/-- What comes after the second code unit of a surrogate pair. -/
def AfterTrail (lead trail : ℕ) (content out : Bytes) : Prop :=
  IsTrail trail ∧ Follows (pairCode lead trail) content out

/-- What comes after a code unit: the escape of the second, if it is the first of a pair. -/
def AfterUnit (unit : ℕ) (content out : Bytes) : Prop :=
  ¬IsLead unit ∧ ¬IsTrail unit ∧ Follows unit content out ∨
    IsLead unit ∧ ∃ bs, content = 0x5C :: 0x75 :: bs ∧ Numbered (AfterTrail unit) 4 0 bs out

/-- The content that comes, after what was read of an escape, stands for these bytes. -/
def Escape.Opens (content out : Bytes) : Escape → Prop
  | .none => Unescapes content out
  | .opened => Unescapes (0x5C :: content) out
  | .hex lead? left unit? => ∃ unit ∈ unit?,
      Numbered (lead?.elim AfterUnit AfterTrail) (left + 1) unit content out
  | .needPair lead => ∃ bs, content = 0x5C :: 0x75 :: bs ∧ Numbered (AfterTrail lead) 4 0 bs out
  | .openedPair lead => ∃ bs, content = 0x75 :: bs ∧ Numbered (AfterTrail lead) 4 0 bs out

/-- The content that comes completes a string to a text. -/
def Text.Closes (s : String) : Text → Bytes → Prop
  | t, [] => t.escape = .none ∧ t.finish? = some s
  | t, b :: bs => ∃ t', t.step b = .ok (some t') ∧ Closes s t' bs

section

variable {after : ℕ → Bytes → Bytes → Prop} {left unit : ℕ} {b : UInt8} {content out : Bytes}

theorem isHexDigit_of_extendUnit {unit? : Option ℕ} {unit : ℕ}
    (h : Text.extendUnit unit? b = some unit) :
    isHexDigit b = true ∧ ∃ u ∈ unit?, unit = 16 * u + hexValue b := by
  unfold Text.extendUnit at h
  split at h
  · split at h
    · next hb => exact ⟨hb, _, rfl, (Option.some.inj h).symm⟩
    · cases h
  · cases h

theorem Numbered.cons (hb : isHexDigit b = true)
    (h : Numbered after left (16 * unit + hexValue b) content out) :
    Numbered after (left + 1) unit (b :: content) out := by
  obtain ⟨ds, bs, rfl, hlength, hds, hafter⟩ := h
  refine ⟨b :: ds, bs, rfl, by rw [List.length_cons, hlength], ?_, hafter⟩
  exact List.forall_mem_cons.2 ⟨hb, hds⟩

theorem Numbered.last (hb : isHexDigit b = true) (h : after (16 * unit + hexValue b) content out) :
    Numbered after 1 unit (b :: content) out :=
  .cons hb ⟨[], content, rfl, rfl, by simp, h⟩

/-- What comes after an opened numeric escape has the form of one. -/
theorem unescapes_of_numbered (h : Numbered AfterUnit 4 0 content out) :
    Unescapes (0x5C :: 0x75 :: content) out := by
  obtain ⟨ds, bs, rfl, hlength, hhex, hafter⟩ := h
  rcases hafter with ⟨hlead, htrail, out', hout, h⟩ |
    ⟨hlead, bs', rfl, es, bs, rfl, hlength', hhex', htrail, out', hout, h⟩
  · rw [hout]
    exact .unit ⟨hlength, hhex, rfl⟩ hlead htrail h
  · rw [hout]
    exact .pair ⟨hlength, hhex, rfl⟩ ⟨hlength', hhex', rfl⟩ hlead htrail h

theorem Text.follows_of_push {t : Text} (code : ℕ)
    (h : (t.push code).escape.Opens content out) :
    ∃ out', Follows code content out' ∧
      t.reversed.reverse ++ out' = (t.push code).reversed.reverse ++ out :=
  ⟨_, ⟨out, rfl, h⟩, by simp [push]⟩

/-- What follows the last digit of a code unit is what comes after the code unit. -/
theorem Text.after_pushUnit {t t' : Text} {lead? : Option ℕ} (h : t.pushUnit lead? unit = .ok t')
    (hopens : t'.escape.Opens content out) :
    ∃ out', lead?.elim AfterUnit AfterTrail unit content out' ∧
      t.reversed.reverse ++ out' = t'.reversed.reverse ++ out := by
  cases lead? with
  | none =>
    simp only [pushUnit] at h
    split_ifs at h with htrail hlead
    · obtain rfl := Except.ok.inj h
      exact ⟨out, Or.inr ⟨hlead, hopens⟩, rfl⟩
    · obtain rfl := Except.ok.inj h
      obtain ⟨out', hfollows, heq⟩ := follows_of_push _ hopens
      exact ⟨out', Or.inl ⟨hlead, htrail, hfollows⟩, heq⟩
  | some lead =>
    simp only [pushUnit] at h
    split_ifs at h with htrail
    obtain rfl := Except.ok.inj h
    obtain ⟨out', hfollows, heq⟩ := follows_of_push _ hopens
    exact ⟨out', ⟨htrail, hfollows⟩, heq⟩

/-- A byte of the content of a string, before content that stands for bytes. -/
theorem Text.opens_of_step {t t' : Text} (h : t.step b = .ok (some t'))
    (hopens : t'.escape.Opens content out) :
    ∃ out', t.escape.Opens (b :: content) out' ∧
      t.reversed.reverse ++ out' = t'.reversed.reverse ++ out := by
  obtain ⟨reversed, escape⟩ := t
  cases escape with
  | none =>
    simp only [step] at h
    split_ifs at h with hquote hbackslash hcontrol
    · cases h
    · obtain rfl := Option.some.inj (Except.ok.inj h)
      exact ⟨out, hbackslash ▸ hopens, rfl⟩
    · obtain rfl := Option.some.inj (Except.ok.inj h)
      exact ⟨b :: out, .byte (UInt8.not_lt.1 hcontrol) hquote hbackslash hopens, by simp⟩
  | opened =>
    simp only [step] at h
    split_ifs at h with hu hletter
    · obtain rfl := Option.some.inj (Except.ok.inj h)
      obtain ⟨unit, hunit, hnumbered⟩ := hopens
      obtain rfl : 0 = unit := by simpa using hunit
      exact ⟨out, hu ▸ unescapes_of_numbered hnumbered, rfl⟩
    · obtain rfl := Option.some.inj (Except.ok.inj h)
      exact ⟨unescapeLetter b :: out, .letter (mem_escapeLetters hletter) hopens, by simp⟩
  | hex lead? left unit? =>
    cases left with
    | zero =>
      simp only [step] at h
      split at h
      · cases h
      · next unit hunit =>
        obtain ⟨hb, u, hu, rfl⟩ := isHexDigit_of_extendUnit hunit
        obtain ⟨t'', hpush, rfl⟩ : ∃ t'', Text.pushUnit _ lead? _ = .ok t'' ∧ t'' = t' := by
          rcases hpush : Text.pushUnit ⟨reversed, .hex lead? 0 unit?⟩ lead? (16 * u + hexValue b)
            with e | t''
          · rw [hpush] at h
            cases h
          · rw [hpush] at h
            exact ⟨t'', hpush, Option.some.inj (Except.ok.inj h)⟩
        obtain ⟨out', hafter, heq⟩ := after_pushUnit hpush hopens
        exact ⟨out', ⟨u, hu, .last hb hafter⟩, heq⟩
    | succ left =>
      obtain rfl := Option.some.inj (Except.ok.inj h)
      obtain ⟨unit, hunit, hnumbered⟩ := hopens
      obtain ⟨hb, u, hu, rfl⟩ := isHexDigit_of_extendUnit hunit
      exact ⟨out, ⟨u, hu, hnumbered.cons hb⟩, rfl⟩
  | needPair lead =>
    simp only [step] at h
    split_ifs at h with hb
    obtain rfl := Option.some.inj (Except.ok.inj h)
    obtain ⟨bs, rfl, hnumbered⟩ := hopens
    exact ⟨out, ⟨bs, hb ▸ rfl, hnumbered⟩, rfl⟩
  | openedPair lead =>
    simp only [step] at h
    split_ifs at h with hb
    obtain rfl := Option.some.inj (Except.ok.inj h)
    obtain ⟨unit, hunit, hnumbered⟩ := hopens
    obtain rfl : 0 = unit := by simpa using hunit
    exact ⟨out, ⟨content, hb ▸ rfl, hnumbered⟩, rfl⟩

theorem Text.step_eq_none {t : Text} (h : t.step b = .ok none) : b = 0x22 ∧ t.escape = .none := by
  obtain ⟨reversed, escape⟩ := t
  cases escape with
  | none =>
    simp only [step] at h
    split_ifs at h with hquote
    · exact ⟨hquote, rfl⟩
    all_goals cases h
  | hex lead? left unit? =>
    cases left with
    | zero =>
      simp only [step] at h
      split at h
      · cases h
      · next unit _ =>
        rcases hpush : Text.pushUnit ⟨reversed, .hex lead? 0 unit?⟩ lead? unit with e | t' <;>
          (rw [hpush] at h; cases h)
    | succ left => cases h
  | opened | needPair | openedPair =>
    simp only [step] at h
    split_ifs at h <;> cases h

/-- Content that completes a string stands for what is missing of its bytes. -/
theorem Text.Closes.opens {s : String} {t : Text} (h : t.Closes s content) :
    ∃ out, t.escape.Opens content out ∧ t.reversed.reverse ++ out = Utf8.encode s := by
  induction content generalizing t with
  | nil =>
    obtain ⟨hescape, hfinish⟩ := h
    refine ⟨[], hescape ▸ .nil, ?_⟩
    rw [List.append_nil, Utf8.encode_of_decode? hfinish]
  | cons b bs ih =>
    obtain ⟨t', hstep, hcloses⟩ := h
    obtain ⟨out', hopens', heq'⟩ := ih hcloses
    obtain ⟨out, hopens, heq⟩ := opens_of_step hstep hopens'
    exact ⟨out, hopens, heq.trans heq'⟩

/-- A string that is read is one that its literal denotes. -/
theorem Text.Closes.quotes {s : String} (h : Text.Closes s { } content) : Quotes content s := by
  obtain ⟨out, hopens, heq⟩ := h.opens
  rw [show out = Utf8.encode s from heq] at hopens
  exact hopens

end

/-! ## States -/

section

/-- What is read matches the value, except where an object stands for another value. -/
def Reads (t : Value Literal) (x : Value) : Prop :=
  t.MatchesExcept Value.IsEmbedded Literal.Keeps x

/-- Members that are read one by one. -/
def ReadsAll (ms : Members Literal) (xs : Members) : Prop := Members.Align Reads ms xs

/-- Members after those of an object. -/
def extend (members xs : Members) : Members :=
  xs.foldl (fun members m => members.insert m.1 m.2) members

/-- After a value `x` and then the bytes `rest`, the whole text is read as `v`. -/
def After (v : Value) : List Frame → Value → Bytes → Prop
  | [], x, rest => x = v ∧ ∀ b ∈ rest, isSpace b = true
  | .array items :: stack, x, rest => ∃ ts xs mid, Spells Quotes (.moreItems ts) rest mid ∧
      List.Forall₂ Reads ts xs ∧ After v stack (.array (items.reverse ++ x :: xs)) mid
  | .object members key :: stack, x, rest => ∃ ms xs mid,
      Spells Quotes (.moreMembers ms) rest mid ∧ ReadsAll ms xs ∧
      After v stack (.object (extend (members.insert key x) xs)) mid
  | .embedded :: stack, _, rest => ∃ y mid, Spells Quotes (.moreMembers []) rest mid ∧
      After v stack y mid

/-- The bytes start with a value, and then the whole text is read as `v`. -/
def Awaits (v : Value) (stack : List Frame) (bs : Bytes) : Prop :=
  ∃ t x mid, Spells Quotes (.value t) bs mid ∧ Reads t x ∧ After v stack x mid

end

/-- These bytes may come at a state for the whole text to be read as `v`. -/
def State.Completes (v : Value) : State → Bytes → Prop
  | .value stack, bs => Awaits v stack bs
  | .arrayStart stack, bs => ∃ ts xs mid, Spells Quotes (.items ts) bs mid ∧
      List.Forall₂ Reads ts xs ∧ After v stack (.array xs) mid
  | .arrayMore items stack, bs => Awaits v (.array items :: stack) bs
  | .arrayNext items stack, bs => ∃ ts xs mid, Spells Quotes (.moreItems ts) bs mid ∧
      List.Forall₂ Reads ts xs ∧ After v stack (.array (items.reverse ++ xs)) mid
  | .objectStart stack, bs => ∃ ms x mid, Spells Quotes (.members ms) bs mid ∧
      Reads (.object ms) x ∧ After v stack x mid
  | .objectMore members stack, bs => ∃ key t x mid, Spells Quotes (.member key t) bs mid ∧
      Reads t x ∧ After v (.object members key :: stack) x mid
  | .objectNext members stack, bs => ∃ ms xs mid, Spells Quotes (.moreMembers ms) bs mid ∧
      ReadsAll ms xs ∧ After v stack (.object (extend members xs)) mid
  | .embeddedNext x stack, bs => ∃ mid, Spells Quotes (.moreMembers []) bs mid ∧
      After v stack x mid
  | .colon frame stack, bs => ∃ t x mid, Spells Quotes (.colon t) bs mid ∧ Reads t x ∧
      After v (frame :: stack) x mid
  | .literal left x stack, bs => ∃ mid, bs = left ++ mid ∧ After v stack x mid
  | .number n stack, bs => ∃ ds mid n' x, bs = ds ++ mid ∧ n.run? ds = some n' ∧
      n'.phase.complete = true ∧ n'.value? = some x ∧ After v stack (.number x) mid
  | .string (.key members first) text stack, bs => ∃ content key mid,
      bs = content ++ 0x22 :: mid ∧ text.Closes key content ∧
      ∃ t x rest, Spells Quotes (.colon t) mid rest ∧ Reads t x ∧
        After v (openMember members first key :: stack) x rest
  | .string .value text stack, bs => ∃ content s mid, bs = content ++ 0x22 :: mid ∧
      text.Closes s content ∧ After v stack (.string s) mid
  | .done x, bs => x = v ∧ ∀ b ∈ bs, isSpace b = true

/-- Where blanks may come. -/
def State.Between : State → Prop
  | .literal .. | .number .. | .string .. => False
  | _ => True

section

variable {nested : String → Except Error Value} {fault : Cause → Fault} {v x : Value}
  {stack : List Frame} {s s' : State} {b : UInt8} {bs rest : Bytes}

theorem State.completes_space (hs : s.Between) (hb : isSpace b = true) (h : s.Completes v bs) :
    s.Completes v (b :: bs) := by
  cases s with
  | literal | number | string => exact hs.elim
  | done => exact ⟨h.1, List.forall_mem_cons.2 ⟨hb, h.2⟩⟩
  | value | arrayMore =>
    obtain ⟨t, y, mid, hspells, h⟩ := h
    exact ⟨t, y, mid, .space hb hspells, h⟩
  | arrayStart | arrayNext | objectStart | objectNext | colon =>
    obtain ⟨ts, xs, mid, hspells, h⟩ := h
    exact ⟨ts, xs, mid, .space hb hspells, h⟩
  | objectMore =>
    obtain ⟨key, t, y, mid, hspells, h⟩ := h
    exact ⟨key, t, y, mid, .space hb hspells, h⟩
  | embeddedNext =>
    obtain ⟨mid, hspells, h⟩ := h
    exact ⟨mid, .space hb hspells, h⟩

theorem between_afterValue (h : afterValue nested fault x stack = .ok s) : s.Between := by
  unfold afterValue at h
  split at h
  · obtain rfl := Except.ok.inj h
    trivial
  · obtain rfl := Except.ok.inj h
    trivial
  · obtain rfl := Except.ok.inj h
    trivial
  · split at h
    · split at h
      · obtain rfl := Except.ok.inj h
        trivial
      · cases h
    · cases h

/-- What may come at the state after a value may come after the value. -/
theorem after_of_afterValue (h : afterValue nested fault x stack = .ok s)
    (hs : s.Completes v bs) : After v stack x bs := by
  unfold afterValue at h
  split at h
  · obtain rfl := Except.ok.inj h
    exact hs
  · obtain rfl := Except.ok.inj h
    obtain ⟨ts, xs, mid, hspells, hreads, hafter⟩ := hs
    exact ⟨ts, xs, mid, hspells, hreads, by simpa using hafter⟩
  · obtain rfl := Except.ok.inj h
    exact hs
  · split at h
    · split at h
      · next y _ =>
        obtain rfl := Except.ok.inj h
        exact ⟨y, hs⟩
      · cases h
    · cases h

theorem mem_words {left : Bytes} (h : literalTail? b = some left) :
    ∃ t, (b :: left, t) ∈ words ∧ Reads t (literalValue b) := by
  unfold literalTail? at h
  split_ifs at h with hnull htrue hfalse
  · obtain rfl := Option.some.inj h
    exact ⟨.null, by simp [words, hnull], by rw [hnull]; exact .null⟩
  · obtain rfl := Option.some.inj h
    exact ⟨.bool true, by simp [words, htrue], by rw [htrue]; exact .bool true⟩
  · obtain rfl := Option.some.inj h
    exact ⟨.bool false, by simp [words, hfalse], by rw [hfalse]; exact .bool false⟩

/-- Members that are put into the order of their keys. -/
theorem reads_object {ms : Members Literal} {xs : Members} (h : ReadsAll ms xs) :
    Reads (.object ms) (.object (Members.ofList xs)) := by
  refine .object (fun key => ?_) fun key t u ht hu => ?_
  · rw [Members.last?_ofList, h.isSome_last?]
  · rw [Members.last?_ofList] at hu
    exact h.of_last? ht hu

/-- What may come at the state after the first byte of a value may come after that byte. -/
theorem awaits_of_startValue (h : startValue stack b = .ok s) (hs : s.Completes v bs) :
    Awaits v stack (b :: bs) := by
  unfold startValue at h
  split_ifs at h with harray hembedded hobject hembedded' hquote
  · unfold descend at h
    split_ifs at h
    obtain rfl := Except.ok.inj h
    obtain ⟨ts, xs, mid, hspells, hreads, hafter⟩ := hs
    exact ⟨.array ts, .array xs, mid, harray ▸ .array hspells, .array_of_forall₂ hreads, hafter⟩
  · unfold descend at h
    split_ifs at h
    obtain rfl := Except.ok.inj h
    obtain ⟨ms, x, mid, hspells, hreads, hafter⟩ := hs
    exact ⟨.object ms, x, mid, hobject ▸ .object hspells, hreads, hafter⟩
  · obtain rfl := Except.ok.inj h
    obtain ⟨content, s, mid, rfl, hcloses, hafter⟩ := hs
    exact ⟨.string s, .string s, mid, hquote ▸ .string hcloses.quotes mid, .string s, hafter⟩
  · split at h
    · next n hn =>
      obtain rfl := Except.ok.inj h
      obtain ⟨ds, mid, n', x, rfl, hrun, hcomplete, hx, hafter⟩ := hs
      have hwhole : Numeral.whole? (b :: ds) = some n' := by
        simp [Numeral.whole?, hn, hrun, hcomplete]
      obtain ⟨l, hl⟩ := Numeral.exists_literal hwhole
      refine ⟨.number l, .number x, mid, ?_, .number ?_, hafter⟩
      · rw [← List.cons_append, ← hl]
        exact .number l mid
      · rw [Literal.Keeps, hl, Numeral.read?, hwhole, Option.bind_some, hx]
    · split at h
      · next left hleft =>
        obtain rfl := Except.ok.inj h
        obtain ⟨mid, rfl, hafter⟩ := hs
        obtain ⟨t, hword, hreads⟩ := mem_words hleft
        exact ⟨t, _, mid, .word hword mid, hreads, hafter⟩
      · cases h

/-- The first member of an object, with the quote that opens its key. -/
theorem completes_objectStart (hs : State.Completes v (.string (.key [] true) { } stack) bs) :
    State.Completes v (.objectStart stack) (0x22 :: bs) := by
  obtain ⟨content, key, mid, rfl, hcloses, t, x, rest, hspells, hreads, hafter⟩ := hs
  have hmember : Spells Quotes (.member key t) (0x22 :: (content ++ 0x22 :: mid)) rest :=
    .member hcloses.quotes hspells
  unfold openMember at hafter
  split_ifs at hafter with hkey
  · obtain ⟨y, rest', hend, hafter⟩ := hafter
    exact ⟨[(key, t)], y, rest', hmember.members hend, .exempt hkey.2 y, hafter⟩
  · obtain ⟨ms, xs, rest', hmore, hall, hafter⟩ := hafter
    have hall' : ReadsAll ((key, t) :: ms) ((key, x) :: xs) := .cons ⟨rfl, hreads⟩ hall
    exact ⟨(key, t) :: ms, _, rest', hmember.members hmore, reads_object hall', hafter⟩

/-- What may come at the state after a byte between tokens may come after the byte. -/
theorem State.completes_structural (h : s.structural nested b = .ok s')
    (hs : s'.Completes v bs) : s.Completes v (b :: bs) := by
  cases s with
  | value stack => exact awaits_of_startValue h hs
  | arrayStart stack =>
    simp only [structural] at h
    split_ifs at h with hb
    · exact ⟨[], [], bs, hb ▸ .noItems bs, .nil, after_of_afterValue h hs⟩
    · obtain ⟨t, x, mid, hspells, hreads, ts, xs, mid', hmore, hall, hafter⟩ :=
        awaits_of_startValue h hs
      exact ⟨t :: ts, x :: xs, mid', hspells.items hmore, .cons hreads hall, hafter⟩
  | arrayMore items stack =>
    simp only [structural] at h
    split_ifs at h with hb
    exact awaits_of_startValue h hs
  | arrayNext items stack =>
    simp only [structural] at h
    split_ifs at h with hcomma hend
    · obtain rfl := Except.ok.inj h
      obtain ⟨t, x, mid, hspells, hreads, ts, xs, mid', hmore, hall, hafter⟩ := hs
      exact ⟨t :: ts, x :: xs, mid', hcomma ▸ .nextItem hspells hmore, .cons hreads hall, hafter⟩
    · exact ⟨[], [], bs, hend ▸ .endItems bs, .nil, by simpa using after_of_afterValue h hs⟩
  | objectStart stack =>
    simp only [structural] at h
    split_ifs at h with hend hquote
    · refine ⟨[], _, bs, hend ▸ .noMembers bs, reads_object .nil, after_of_afterValue h hs⟩
    · obtain rfl := Except.ok.inj h
      exact hquote ▸ completes_objectStart hs
  | objectMore members stack =>
    simp only [structural] at h
    split_ifs at h with hquote
    obtain rfl := Except.ok.inj h
    obtain ⟨content, key, mid, rfl, hcloses, t, x, rest, hspells, hreads, hafter⟩ := hs
    exact ⟨key, t, x, rest, hquote ▸ .member hcloses.quotes hspells, hreads, hafter⟩
  | objectNext members stack =>
    simp only [structural] at h
    split_ifs at h with hcomma hend
    · obtain rfl := Except.ok.inj h
      obtain ⟨key, t, x, mid, hspells, hreads, ms, xs, mid', hmore, hall, hafter⟩ := hs
      exact ⟨(key, t) :: ms, (key, x) :: xs, mid', hcomma ▸ .nextMember hspells hmore,
        .cons ⟨rfl, hreads⟩ hall, hafter⟩
    · exact ⟨[], [], bs, hend ▸ .endMembers bs, .nil, after_of_afterValue h hs⟩
  | embeddedNext x stack =>
    simp only [structural] at h
    split_ifs at h with hend
    exact ⟨bs, hend ▸ .endMembers bs, after_of_afterValue h hs⟩
  | colon frame stack =>
    simp only [structural] at h
    split_ifs at h with hb
    obtain rfl := Except.ok.inj h
    obtain ⟨t, x, mid, hspells, h⟩ := hs
    exact ⟨t, x, mid, hb ▸ .colon hspells, h⟩
  | literal | number | string | done => cases h

theorem State.completes_between (hbetween : s.Between) (h : s.between nested b = .ok s')
    (hs : s'.Completes v bs) : s.Completes v (b :: bs) := by
  unfold between at h
  split_ifs at h with hb
  · obtain rfl := Except.ok.inj h
    exact completes_space hbetween hb hs
  · exact completes_structural h hs

/-- A value that ended before the byte. -/
theorem after_of_bind (h : (afterValue nested fault x stack).bind (·.between nested b) = .ok s)
    (hs : s.Completes v bs) : After v stack x (b :: bs) := by
  rcases hvalue : afterValue nested fault x stack with f | s'
  · rw [hvalue] at h
    cases h
  · rw [hvalue] at h
    exact after_of_afterValue hvalue (State.completes_between (between_afterValue hvalue) h hs)

/-- What may come at the state after a byte may come, after the byte, at the state before it. -/
theorem State.completes_cons (h : s.step nested b = .ok s') (hs : s'.Completes v bs) :
    s.Completes v (b :: bs) := by
  cases s with
  | literal left x stack =>
    cases left with
    | nil => exact ⟨b :: bs, rfl, after_of_bind h hs⟩
    | cons l left =>
      simp only [step] at h
      split_ifs at h with hb hleft
      · obtain rfl := List.isEmpty_iff.1 hleft
        exact ⟨bs, by rw [hb]; rfl, after_of_afterValue h hs⟩
      · obtain rfl := Except.ok.inj h
        obtain ⟨mid, rfl, hafter⟩ := hs
        exact ⟨mid, by rw [hb]; rfl, hafter⟩
  | number n stack =>
    simp only [step] at h
    split at h
    · next n' hstep =>
      obtain rfl := Except.ok.inj h
      obtain ⟨ds, mid, n'', x, rfl, hrun, hrest⟩ := hs
      exact ⟨b :: ds, mid, n'', x, rfl, by simp [Numeral.run?, hstep, hrun], hrest⟩
    · cases h
    · next hended =>
      split at h
      · cases h
      · next x hvalue =>
        unfold numberValue at hvalue
        split at hvalue
        · next k hk =>
          obtain rfl := Except.ok.inj hvalue
          exact ⟨[], b :: bs, n, k, rfl, rfl, Numeral.complete_of_ended hended, hk,
            after_of_bind h hs⟩
        · cases hvalue
  | string role text stack =>
    simp only [step] at h
    split at h
    · cases h
    · next text' hstep =>
      obtain rfl := Except.ok.inj h
      cases role with
      | key members first =>
        obtain ⟨content, key, mid, rfl, hcloses, hrest⟩ := hs
        exact ⟨b :: content, key, mid, rfl, ⟨_, hstep, hcloses⟩, hrest⟩
      | value =>
        obtain ⟨content, key, mid, rfl, hcloses, hrest⟩ := hs
        exact ⟨b :: content, key, mid, rfl, ⟨_, hstep, hcloses⟩, hrest⟩
    · next hstep =>
      obtain ⟨hb, hescape⟩ := Text.step_eq_none hstep
      split at h
      · cases h
      · next key members first hfinish =>
        obtain rfl := Except.ok.inj h
        exact ⟨[], key, bs, hb ▸ rfl, ⟨hescape, hfinish⟩, hs⟩
      · next str hfinish =>
        exact ⟨[], str, bs, hb ▸ rfl, ⟨hescape, hfinish⟩, after_of_afterValue h hs⟩
  | _ => exact completes_between trivial h hs

/-- Where a text may end, nothing need come. -/
theorem State.completes_nil (h : s.finish = .ok v) : s.Completes v [] := by
  cases s with
  | done x =>
    obtain rfl := Except.ok.inj h
    exact ⟨rfl, by simp⟩
  | number n stack =>
    simp only [finish] at h
    split_ifs at h with hcomplete
    unfold numberValue at h
    cases hvalue : n.value? with
    | none => simp [hvalue] at h
    | some k =>
      simp only [hvalue] at h
      cases stack with
      | nil =>
        obtain rfl := Except.ok.inj h
        exact ⟨[], [], n, k, rfl, rfl, hcomplete, hvalue, rfl, by simp⟩
      | cons frame stack => cases frame <;> cases h
  | _ => cases h

theorem State.completes_of_feed (h : feed (State.step nested) s bs = .ok s')
    (hfinish : s'.finish = .ok v) : s.Completes v bs := by
  induction bs generalizing s with
  | nil =>
    obtain rfl := Except.ok.inj h
    exact completes_nil hfinish
  | cons b bs ih =>
    simp only [feed] at h
    split at h
    · next s'' hstep => exact completes_cons hstep (ih h)
    · cases h

end

end Read

/-- A text that is read denotes a value, and what is read matches it except where an object stands
for another value. -/
theorem exists_denotes_of_read {bs : Bytes} {v : Value} (h : read bs = .ok v) :
    ∃ t, Denotes bs t ∧ t.MatchesExcept Value.IsEmbedded Literal.Keeps v := by
  simp only [read, readNested, readWith] at h
  split at h
  · cases h
  · next s hfeed =>
    split at h
    · next x hfinish =>
      obtain rfl := Except.ok.inj h
      obtain ⟨t, y, mid, hspells, hreads, rfl, hspaces⟩ :=
        Read.State.completes_of_feed hfeed hfinish
      exact ⟨t, ⟨mid, hspells, hspaces⟩, hreads⟩
    · cases h

end FramedRelay.Json
