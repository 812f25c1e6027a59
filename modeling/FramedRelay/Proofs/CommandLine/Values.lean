import FramedRelay.CommandLine.Setting
import FramedRelay.Proofs.Text.Decimals
import Mathlib.Data.List.Nodup
import Mathlib.Logic.Function.Basic
import Mathlib.Tactic.Common

/-!
# Values of settings

Options are a value for each setting (`Options.value`), and there is nothing more to them
(`Options.ext_value`). Bytes spell a value if they are that text, the name of that choice, or that
number in decimal, perhaps with a sign (`Setting.Spells`). A setting takes exactly the bytes that
spell one of its values, and then has that value, while all other settings keep theirs
(`Setting.assign_eq_ok_iff`); they spell no other value (`Setting.Spells.unique`). What is written
for a value spells it (`Setting.spells_render`).
-/

namespace FramedRelay

/-- What a setting can be set to. -/
abbrev Setting.Value : Setting → Type
  | .host => String
  | .port => UInt16
  | .enclaveCid | .enclavePort => UInt32
  | .tcpDestination => Option String
  | .framing => Framing
  | .jsonMode => JsonMode
  | .maxRequestBytes | .maxReplyBytes => UInt64
  | .connectTimeoutMs | .sendTimeoutMs | .receiveTimeoutMs => UInt64
  | .logFormat => LogFormat

/-! ## Options as values of settings -/

namespace Options

variable {o o' : Options} {s : Setting}

/-- The value of a setting. -/
def value (o : Options) : (s : Setting) → s.Value
  | .host => o.host
  | .port => o.port
  | .enclaveCid => o.enclaveCid
  | .enclavePort => o.enclavePort
  | .tcpDestination => o.tcpDestination
  | .framing => o.framing
  | .jsonMode => o.jsonMode
  | .maxRequestBytes => o.maxRequestBytes
  | .maxReplyBytes => o.maxReplyBytes
  | .connectTimeoutMs => o.connectTimeoutMs
  | .sendTimeoutMs => o.sendTimeoutMs
  | .receiveTimeoutMs => o.receiveTimeoutMs
  | .logFormat => o.logFormat

/-- The options in which each setting has a given value. -/
def ofValues (values : (s : Setting) → s.Value) : Options where
  host := values .host
  port := values .port
  enclaveCid := values .enclaveCid
  enclavePort := values .enclavePort
  tcpDestination := values .tcpDestination
  framing := values .framing
  jsonMode := values .jsonMode
  maxRequestBytes := values .maxRequestBytes
  maxReplyBytes := values .maxReplyBytes
  connectTimeoutMs := values .connectTimeoutMs
  sendTimeoutMs := values .sendTimeoutMs
  receiveTimeoutMs := values .receiveTimeoutMs
  logFormat := values .logFormat

@[simp] theorem value_ofValues (values : (s : Setting) → s.Value) (s : Setting) :
    (ofValues values).value s = values s := by
  cases s <;> rfl

theorem ext_value (h : ∀ s, o.value s = o'.value s) : o = o' :=
  congrArg ofValues (funext h)

/-- Values can be chosen for each setting by itself. -/
theorem exists_forall_value_iff {P : (s : Setting) → s.Value → Prop} :
    (∃ o : Options, ∀ s, P s (o.value s)) ↔ ∀ s, ∃ v, P s v := by
  constructor
  · exact fun ⟨o, h⟩ s => ⟨o.value s, h s⟩
  · intro h
    choose values hvalues using h
    exact ⟨ofValues values, fun s => by rw [value_ofValues]; exact hvalues s⟩

/-- The options with another value of one setting. -/
def set (o : Options) (s : Setting) (v : s.Value) : Options :=
  ofValues (Function.update o.value s v)

@[simp] theorem value_set_self (o : Options) (s : Setting) (v : s.Value) :
    (o.set s v).value s = v := by
  simp [set]

theorem value_set_of_ne {s' : Setting} (h : s' ≠ s) (o : Options) (v : s.Value) :
    (o.set s v).value s' = o.value s' := by
  simp [set, h]

end Options

namespace Setting

variable {s : Setting} {value : Bytes} {n greatest : ℕ}

/-! ## Spellings -/

/-- A number in decimal, perhaps after a plus sign. -/
def IsUnsigned (value : Bytes) (n : ℕ) : Prop :=
  ∃ t : String, value = Utf8.encode t ∧ Decimal.Unsigned t.toList n

/-- A number in decimal, perhaps after a sign. -/
def IsSigned (value : Bytes) (n : ℕ) : Prop :=
  ∃ t : String, value = Utf8.encode t ∧ Decimal.Signed t.toList n

/-- The bytes that spell a value of a setting: those of any text, of a number within the range of
its type, or of the name of a choice. A zero of less than 64 bits may have a minus sign. -/
def Spells : (s : Setting) → Bytes → s.Value → Prop
  | host, value, v => value = Utf8.encode v
  | port, value, v => IsSigned value v.toNat
  | enclaveCid, value, v | enclavePort, value, v => IsSigned value v.toNat
  | tcpDestination, value, v => ∃ t, v = some t ∧ value = Utf8.encode t
  | framing, value, v => value = Utf8.encode v.name
  | jsonMode, value, v => value = Utf8.encode v.name
  | maxRequestBytes, value, v | maxReplyBytes, value, v => IsUnsigned value v.toNat
  | connectTimeoutMs, value, v | sendTimeoutMs, value, v
  | receiveTimeoutMs, value, v => IsUnsigned value v.toNat
  | logFormat, value, v => value = Utf8.encode v.name

theorem text_eq_ok_iff {t : String} : text value = .ok t ↔ value = Utf8.encode t := by
  unfold text
  constructor
  · intro h
    split at h
    · next hdecode =>
      obtain rfl := Except.ok.inj h
      exact (Utf8.encode_of_decode? hdecode).symm
    · cases h
  · rintro rfl
    rw [Utf8.decode?_encode]

theorem wide_eq_ok_iff : wide value = .ok n ↔ IsUnsigned value n ∧ n < UInt64.size := by
  rw [wide, Except.bind_eq_ok_iff, IsUnsigned, ← exists_and_right]
  simp only [text_eq_ok_iff, and_assoc]
  refine exists_congr fun t => and_congr_right fun _ => ?_
  rw [← Decimal.read_eq_ok_iff]
  cases Decimal.read UInt64.size t.toList <;> simp

theorem ranged_eq_ok_iff (hgreatest : greatest < UInt64.size / 2) :
    ranged greatest value = .ok n ↔ IsSigned value n ∧ n ≤ greatest := by
  rw [ranged, Except.bind_eq_ok_iff, IsSigned, ← exists_and_right]
  simp only [text_eq_ok_iff, and_assoc]
  refine exists_congr fun t => and_congr_right fun _ => ?_
  have hread : Decimal.readSigned t.toList = .ok (n : ℤ) ∧ n ≤ greatest ↔
      Decimal.Signed t.toList n ∧ n ≤ greatest := by
    rw [Decimal.readSigned_eq_ok_iff, and_assoc]
    exact and_congr_right fun _ => ⟨And.right, fun hn => ⟨Nat.lt_of_le_of_lt hn hgreatest, hn⟩⟩
  rw [← hread]
  cases Decimal.readSigned t.toList with
  | error fault => simp
  | ok z =>
    by_cases hz : 0 ≤ z ∧ z ≤ greatest
    · simp only [hz, and_self, if_true, Except.ok.injEq]
      omega
    · simp only [hz, if_false, reduceCtorEq, Except.ok.injEq, false_iff]
      omega

theorem chosen_eq_ok_iff {α : Type} {name : α → String} {values : List α}
    (hnames : (values.map name).Nodup) (hall : ∀ v, v ∈ values) {v : α} :
    chosen name values value = .ok v ↔ value = Utf8.encode (name v) := by
  unfold chosen
  constructor
  · intro h
    split at h
    · next w hfind =>
      obtain rfl := Except.ok.inj h
      have hsame := List.find?_some hfind
      exact (eq_of_beq hsame).symm
    · cases h
  · rintro rfl
    split
    · next w hfind =>
      have hsame := List.find?_some hfind
      have hname := Utf8.encode_injective (eq_of_beq hsame)
      rw [List.inj_on_of_nodup_map hnames (hall w) (hall v) hname]
    · next hfind => exact absurd BEq.rfl (List.find?_eq_none.1 hfind v (hall v))

/-- A reader of numbers below a limit reads words, where the limit is that of the word. -/
theorem map_word_eq_ok_iff {ε α : Type} {x : Except ε ℕ} {Spelled : ℕ → Prop} {limit : ℕ}
    {toNat : α → ℕ} {ofNat : ℕ → α} (hx : ∀ n, x = .ok n ↔ Spelled n ∧ n < limit)
    (hword : ∀ v, toNat v < limit ∧ ofNat (toNat v) = v)
    (hnat : ∀ n < limit, toNat (ofNat n) = n) {v : α} :
    x.map ofNat = .ok v ↔ Spelled (toNat v) := by
  rw [Except.map_eq_ok_iff]
  constructor
  · rintro ⟨n, hn, rfl⟩
    obtain ⟨hspelled, hlt⟩ := (hx n).1 hn
    rwa [hnat n hlt]
  · exact fun hspelled => ⟨toNat v, (hx _).2 ⟨hspelled, (hword v).1⟩, (hword v).2⟩

theorem word16_eq_ok_iff {v : UInt16} :
    (ranged 65535 value).map UInt16.ofNat = .ok v ↔ IsSigned value v.toNat :=
  map_word_eq_ok_iff (fun _ => (ranged_eq_ok_iff (by decide)).trans (by rw [← Nat.lt_succ_iff]))
    (fun v => ⟨v.toNat_lt, UInt16.ofNat_toNat⟩) fun _ hn => UInt16.toNat_ofNat_of_lt hn

theorem word32_eq_ok_iff {v : UInt32} :
    (ranged 4294967295 value).map UInt32.ofNat = .ok v ↔ IsSigned value v.toNat :=
  map_word_eq_ok_iff (fun _ => (ranged_eq_ok_iff (by decide)).trans (by rw [← Nat.lt_succ_iff]))
    (fun v => ⟨v.toNat_lt, UInt32.ofNat_toNat⟩) fun _ hn => UInt32.toNat_ofNat_of_lt hn

theorem word64_eq_ok_iff {v : UInt64} :
    (wide value).map UInt64.ofNat = .ok v ↔ IsUnsigned value v.toNat :=
  map_word_eq_ok_iff (fun _ => wide_eq_ok_iff) (fun v => ⟨v.toNat_lt, UInt64.ofNat_toNat⟩)
    fun _ hn => UInt64.toNat_ofNat_of_lt hn

/-! ## Taking a value -/

/-- Reads a value of a setting. -/
def read : (s : Setting) → Bytes → Except Refusal s.Value
  | host, value => text value
  | port, value => (ranged 65535 value).map UInt16.ofNat
  | enclaveCid, value | enclavePort, value => (ranged 4294967295 value).map UInt32.ofNat
  | tcpDestination, value => (text value).map some
  | framing, value => chosen Framing.name [.newline, .lengthPrefixed] value
  | jsonMode, value => chosen JsonMode.name [.passthrough, .validate, .compact] value
  | maxRequestBytes, value | maxReplyBytes, value => (wide value).map UInt64.ofNat
  | connectTimeoutMs, value | sendTimeoutMs, value
  | receiveTimeoutMs, value => (wide value).map UInt64.ofNat
  | logFormat, value => chosen LogFormat.name [.json, .pretty] value

theorem assign_eq (s : Setting) (value : Bytes) (o : Options) :
    s.assign value o = (s.read value).map (o.set s) := by
  have hmap {ε α β γ : Type} (x : Except ε α) (f : α → β) (g : β → γ) :
      (x.map f).map g = x.map fun a => g (f a) := by
    cases x <;> rfl
  cases s <;> simp only [assign, read, hmap] <;> rfl

theorem read_eq_ok_iff {v : s.Value} : s.read value = .ok v ↔ s.Spells value v := by
  cases s with
  | host => exact text_eq_ok_iff
  | port => exact word16_eq_ok_iff
  | enclaveCid | enclavePort => exact word32_eq_ok_iff
  | tcpDestination =>
    rw [read, Except.map_eq_ok_iff]
    simp only [text_eq_ok_iff]
    exact exists_congr fun t => And.comm.trans (and_congr_left' eq_comm)
  | framing => exact chosen_eq_ok_iff (by decide) fun v => by cases v <;> simp
  | jsonMode => exact chosen_eq_ok_iff (by decide) fun v => by cases v <;> simp
  | maxRequestBytes | maxReplyBytes => exact word64_eq_ok_iff
  | connectTimeoutMs | sendTimeoutMs | receiveTimeoutMs => exact word64_eq_ok_iff
  | logFormat => exact chosen_eq_ok_iff (by decide) fun v => by cases v <;> simp

/-- A setting takes the bytes that spell one of its values, and then has that value. -/
theorem assign_eq_ok_iff {o o' : Options} :
    s.assign value o = .ok o' ↔ ∃ v, s.Spells value v ∧ o.set s v = o' := by
  simp only [assign_eq, Except.map_eq_ok_iff, read_eq_ok_iff]

/-- The same bytes do not spell two values. -/
theorem Spells.unique {v v' : s.Value} (h : s.Spells value v) (h' : s.Spells value v') : v = v' :=
  Except.ok.inj ((read_eq_ok_iff.2 h).symm.trans (read_eq_ok_iff.2 h'))

/-! ## Defaults and written values -/

/-- The value of a setting that nothing is given for. -/
def defaultValue : (s : Setting) → s.Value
  | host => "0.0.0.0"
  | port => 8000
  | enclaveCid => 16
  | enclavePort => 5000
  | tcpDestination => none
  | framing => .newline
  | jsonMode => .passthrough
  | maxRequestBytes => 1024 * 1024
  | maxReplyBytes => 10 * 1024 * 1024
  | connectTimeoutMs | sendTimeoutMs => 5000
  | receiveTimeoutMs => 30000
  | logFormat => .json

theorem value_default (s : Setting) : ({ } : Options).value s = s.defaultValue := by
  cases s <;> rfl

theorem isDigits_toString (n : ℕ) : Decimal.IsDigits (toString n).toList n := by
  rw [Nat.toString_eq_ofList_toDigits, String.toList_ofList]
  exact Decimal.isDigits_toDigits n

theorem isUnsigned_toString (n : ℕ) : IsUnsigned (Utf8.encode (toString n)) n :=
  ⟨toString n, rfl, _, Or.inl rfl, isDigits_toString n⟩

theorem isSigned_toString (n : ℕ) : IsSigned (Utf8.encode (toString n)) n :=
  ⟨toString n, rfl, .unsigned ⟨_, Or.inl rfl, isDigits_toString n⟩⟩

/-- What is written for the value of a setting spells it. -/
theorem spells_render {o : Options} {t : String} (h : s.render o = some t) :
    s.Spells (Utf8.encode t) (o.value s) := by
  cases s with
  | tcpDestination => exact ⟨t, h, rfl⟩
  | port | enclaveCid | enclavePort => exact Option.some.inj h ▸ isSigned_toString _
  | maxRequestBytes | maxReplyBytes => exact Option.some.inj h ▸ isUnsigned_toString _
  | connectTimeoutMs | sendTimeoutMs | receiveTimeoutMs =>
    exact Option.some.inj h ▸ isUnsigned_toString _
  | host | framing | jsonMode | logFormat => exact Option.some.inj h ▸ rfl

/-- Only a destination that is not chosen is not written. -/
theorem eq_tcpDestination_of_render {o : Options} (h : s.render o = none) :
    s = tcpDestination ∧ o.tcpDestination = none := by
  cases s with
  | tcpDestination => exact ⟨rfl, h⟩
  | _ => cases h

end Setting

end FramedRelay
