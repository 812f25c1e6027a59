import FramedRelay.CommandLine.Parse
import FramedRelay.Proofs.CommandLine.Values
import Mathlib.Data.List.Perm.Basic

/-!
# Where options come from

Each setting is decided by itself: by its argument, or else by its variable, or else by its default
(`Setting.Resolves`). The arguments may come in any order, and a variable whose setting is given as
an argument may hold anything (`CommandLine.parse_resolves`). So the arguments that are written for
some options give these options back (`CommandLine.follows_written`).

The loop over the arguments (`CommandLine.Reader.takeAll_arguments_eq_ok_iff`) and the one over the
variables (`CommandLine.Reader.takeVariables_eq_ok_iff`) both assign values to one setting after
another. What they come to does not depend on the order, since an assignment changes one setting
and no other (`Options.follows_cons_of_some`).
-/

namespace FramedRelay

/-! ## One setting -/

namespace Setting

variable {s t : Setting} {settings : List Setting} {bytes? : Setting → Option Bytes}

theorem mem_all (s : Setting) : s ∈ all := by
  cases s <;> decide

theorem variableName_injective : Function.Injective variableName := fun s t h =>
  List.inj_on_of_nodup_map (l := all) (by decide) s.mem_all t.mem_all h

/-- The bytes for a setting, if there are any, spell its value; else it has the value `base`. -/
def Resolves (s : Setting) (bytes? : Option Bytes) (base v : s.Value) : Prop :=
  match bytes? with
  | some value => s.Spells value v
  | none => v = base

theorem exists_resolves_iff {bytes? : Option Bytes} {base : s.Value} :
    (∃ v, s.Resolves bytes? base v) ↔ ∀ value, bytes? = some value → ∃ v, s.Spells value v := by
  cases bytes? <;> simp [Resolves]

theorem resolves_or {first second : Option Bytes} {base v : s.Value}
    (h : first = none ∨ second = none) :
    (∃ v₁, s.Resolves first base v₁ ∧ s.Resolves second v₁ v) ↔
      s.Resolves (first.or second) base v := by
  rcases h with rfl | rfl <;> simp [Resolves]

/-- The bytes for some of the settings only. -/
def among (settings : List Setting) (bytes? : Setting → Option Bytes) (s : Setting) :
    Option Bytes :=
  if s ∈ settings then bytes? s else none

theorem among_of_forall_mem (h : ∀ s, s ∈ settings) (bytes? : Setting → Option Bytes) :
    among settings bytes? = bytes? :=
  funext fun s => if_pos (h s)

theorem among_cons_of_ne (h : t ≠ s) :
    among (s :: settings) bytes? t = among settings bytes? t := by
  simp [among, h]

theorem among_cons_of_none (h : bytes? s = none) :
    among (s :: settings) bytes? = among settings bytes? := by
  funext t
  by_cases ht : t = s
  · simp [among, ht, h]
  · exact among_cons_of_ne ht

end Setting

/-! ## All settings -/

namespace Options

variable {o o' : Options} {s : Setting} {settings : List Setting}
  {bytes? first second : Setting → Option Bytes} {base : (s : Setting) → s.Value} {value : Bytes}

/-- Each setting has the value that the bytes for it spell, or else its value in `base`. -/
def Follows (o : Options) (bytes? : Setting → Option Bytes) (base : (s : Setting) → s.Value) :
    Prop :=
  ∀ s : Setting, s.Resolves (bytes? s) (base s) (o.value s)

/-- There are options to follow some bytes if all of them spell values. -/
theorem exists_follows_iff : (∃ o : Options, o.Follows bytes? base) ↔
    ∀ s value, bytes? s = some value → ∃ v, s.Spells value v :=
  exists_forall_value_iff.trans (forall_congr' fun _ => Setting.exists_resolves_iff)

/-- Following some bytes, and then others for other settings, is following all of them. -/
theorem exists_follows_and_follows_iff (h : ∀ s, first s = none ∨ second s = none) :
    (∃ o₁ : Options, o₁.Follows first base ∧ o'.Follows second o₁.value) ↔
      o'.Follows (fun s => (first s).or (second s)) base := by
  have hvalues := exists_forall_value_iff (P := fun s v =>
    s.Resolves (first s) (base s) v ∧ s.Resolves (second s) v (o'.value s))
  calc (∃ o₁ : Options, o₁.Follows first base ∧ o'.Follows second o₁.value)
    _ ↔ _ := exists_congr fun _ => forall_and.symm
    _ ↔ _ := hvalues
    _ ↔ o'.Follows (fun s => (first s).or (second s)) base :=
      forall_congr' fun s => Setting.resolves_or (h s)

theorem follows_nil : o'.Follows (Setting.among [] bytes?) o.value ↔ o = o' := by
  constructor
  · exact fun h => ext_value fun s => (h s).symm
  · rintro rfl s
    rfl

/-- To follow the bytes for one setting and for others is to assign it those for it, and then to
follow those for the others. -/
theorem follows_cons_of_some (hs : s ∉ settings) (hvalue : bytes? s = some value) :
    o'.Follows (Setting.among (s :: settings) bytes?) o.value ↔
      ∃ o₁, s.assign value o = .ok o₁ ∧
        o'.Follows (Setting.among settings bytes?) o₁.value := by
  have hfirst : Setting.among (s :: settings) bytes? s = some value := by
    simp [Setting.among, hvalue]
  have hlater : Setting.among settings bytes? s = none := if_neg hs
  simp only [Setting.assign_eq_ok_iff]
  constructor
  · intro h
    have hspells := h s
    rw [hfirst] at hspells
    refine ⟨_, ⟨o'.value s, hspells, rfl⟩, fun t => ?_⟩
    by_cases ht : t = s
    · subst ht
      rw [hlater]
      exact (value_set_self _ _ _).symm
    · rw [← Setting.among_cons_of_ne ht, value_set_of_ne ht]
      exact h t
  · rintro ⟨_, ⟨v, hspells, rfl⟩, h⟩ t
    have hlast := h t
    by_cases ht : t = s
    · subst ht
      rw [hlater] at hlast
      have hv : o'.value t = v := hlast.trans (value_set_self _ _ _)
      rw [hfirst, hv]
      exact hspells
    · rwa [← Setting.among_cons_of_ne ht, value_set_of_ne ht] at hlast

end Options

/-! ## Environments -/

namespace Environment

/-- The variables of the settings have some values, or are not set. -/
def Gives (env : Environment) (vars : Setting → Option Bytes) : Prop :=
  ∀ s : Setting, env.get? s.variableName = vars s

theorem get?_cons (name name' : String) (value : Bytes) (env : Environment) :
    get? ((name, value) :: env) name' = if name = name' then some value else env.get? name' := by
  by_cases h : name = name' <;> simp [get?, h]

/-- The variables of some settings. -/
def ofSettings (vars : Setting → Option Bytes) (settings : List Setting) : Environment :=
  settings.filterMap fun s => (vars s).map fun value => (s.variableName, value)

theorem get?_ofSettings (vars : Setting → Option Bytes) (settings : List Setting) (s : Setting) :
    (ofSettings vars settings).get? s.variableName = Setting.among settings vars s := by
  induction settings with
  | nil => rfl
  | cons t settings ih =>
    cases hvalue : vars t with
    | none =>
      have hskip : ofSettings vars (t :: settings) = ofSettings vars settings := by
        simp [ofSettings, hvalue]
      rw [hskip, ih, Setting.among_cons_of_none hvalue]
    | some value =>
      have hfirst : ofSettings vars (t :: settings) =
          (t.variableName, value) :: ofSettings vars settings := by
        simp [ofSettings, hvalue]
      rw [hfirst, get?_cons, ih]
      by_cases hs : s = t
      · subst hs
        simp [Setting.among, hvalue]
      · rw [if_neg fun h => hs (Setting.variableName_injective h).symm, Setting.among_cons_of_ne hs]

/-- Variables can be chosen for each setting by itself. -/
theorem exists_gives (vars : Setting → Option Bytes) : ∃ env : Environment, env.Gives vars := by
  refine ⟨ofSettings vars Setting.all, fun s => ?_⟩
  rw [get?_ofSettings, Setting.among_of_forall_mem Setting.mem_all]

end Environment

namespace CommandLine

/-! ## Arguments -/

/-- The argument that gives a setting a value, with an equals sign between the two. -/
def argument (s : Setting) (value : Bytes) : Bytes :=
  0x2D :: 0x2D :: (Utf8.encode s.flag ++ 0x3D :: value)

/-- The arguments that give some of the settings values, in an order of the settings. -/
def arguments (flags : Setting → Option Bytes) (order : List Setting) : List Bytes :=
  order.filterMap fun s => (flags s).map (argument s)

namespace Reader

variable {r r' : Reader} {s : Setting} {value : Bytes}

theorem splitValue_append {name : Bytes} (h : 0x3D ∉ name) (value : Bytes) :
    splitValue (name ++ 0x3D :: value) = (name, some value) := by
  have hname : ∀ b ∈ name, (b != 0x3D) = true := fun b hb =>
    bne_iff_ne.2 fun heq => h (heq ▸ hb)
  rw [splitValue, List.takeWhile_append_of_pos hname, List.dropWhile_append_of_pos hname]
  simp

theorem equals_notMem_flag (s : Setting) : 0x3D ∉ Utf8.encode s.flag := by
  cases s <;> decide

theorem flag_ne_nil (s : Setting) : Utf8.encode s.flag ≠ [] := by
  cases s <;> decide

theorem settingNamed?_flag (s : Setting) : settingNamed? (Utf8.encode s.flag) = some s := by
  cases s <;> decide

theorem settle_of_none (hr : r.pending? = none) : r.settle = (r, .ok ()) := by
  obtain ⟨options, used, pending?⟩ := r
  cases hr
  rfl

theorem take_argument (r : Reader) (s : Setting) (value : Bytes) :
    r.take (argument s value) = r.takeLong (Utf8.encode s.flag) (some value) := by
  obtain ⟨c, cs, hflag⟩ := List.exists_cons_of_ne_nil (flag_ne_nil s)
  have hsplit := splitValue_append (equals_notMem_flag s) value
  rw [hflag, List.cons_append] at hsplit
  rw [argument, hflag, List.cons_append, take, hsplit]

/-- A setting that has not been given before takes the value that an argument gives it. -/
theorem take_argument_eq_ok_iff (hr : r.pending? = none) :
    r.take (argument s value) = .ok r' ↔
      s ∉ r.used ∧ ∃ o, s.assign value r.options = .ok o ∧
        { options := o, used := r.used ++ [s] } = r' := by
  rw [take_argument, takeLong, settingNamed?_flag]
  simp only [settle_of_none hr, give]
  by_cases hs : s ∈ r.used
  · simp [hs]
  · cases s.assign value r.options with
    | error reason => simp [hs]
    | ok o => simp [hs, hr]

/-- What comes after the first equals sign is the value, whatever it looks like. -/
example : Reader.take { } (Utf8.encode "--tcp-destination=--port=80") =
    .ok { options := { tcpDestination := some "--port=80" }, used := [.tcpDestination] } := by
  decide

theorem takeAll_argument (r : Reader) (s : Setting) (value : Bytes) (rest : List Bytes) :
    r.takeAll (argument s value :: rest) =
      r.take (argument s value) >>= fun r => r.takeAll rest := by
  have hne : argument s value ≠ [0x2D, 0x2D] := by simp [argument]
  exact if_neg hne

/-- Arguments, each for another setting, are read to the end if the options can follow them. -/
theorem takeAll_arguments_eq_ok_iff {flags : Setting → Option Bytes} {order : List Setting}
    (hr : r.pending? = none) (hnodup : order.Nodup) (hfresh : ∀ s ∈ order, s ∉ r.used) :
    r.takeAll (arguments flags order) = .ok r' ↔
      r'.options.Follows (Setting.among order flags) r.options.value ∧
        r'.used = r.used ++ order.filter (fun s => (flags s).isSome) ∧ r'.pending? = none := by
  -- No argument repeats a setting: `hfresh` goes on to hold as settings come into use.
  induction order generalizing r with
  | nil =>
    have hnil : r.takeAll (arguments flags []) = .ok r := rfl
    rw [hnil, Options.follows_nil]
    constructor
    · intro h
      obtain rfl := Except.ok.inj h
      exact ⟨rfl, by simp, hr⟩
    · rintro ⟨hoptions, hused, hpending⟩
      cases r
      cases r'
      simp_all
  | cons s order ih =>
    obtain ⟨hs, hnodup⟩ := List.nodup_cons.1 hnodup
    have hrest (t : Setting) (ht : t ∈ order) : t ∉ r.used :=
      hfresh t (List.mem_cons_of_mem _ ht)
    cases hflag : flags s with
    | none =>
      have hskip : arguments flags (s :: order) = arguments flags order := by
        simp [arguments, hflag]
      rw [hskip, ih hr hnodup hrest, Setting.among_cons_of_none hflag,
        List.filter_cons_of_neg (by simp [hflag])]
    | some value =>
      have hfirst : arguments flags (s :: order) = argument s value :: arguments flags order := by
        simp [arguments, hflag]
      have hrest' (t : Setting) (ht : t ∈ order) : t ∉ r.used ++ [s] := by
        have hne : t ≠ s := fun heq => hs (heq ▸ ht)
        simp [hrest t ht, hne]
      rw [hfirst, takeAll_argument, Except.bind_eq_ok_iff, Options.follows_cons_of_some hs hflag,
        List.filter_cons_of_pos (by simp [hflag])]
      constructor
      · rintro ⟨r₁, htake, hall⟩
        obtain ⟨-, o, ho, rfl⟩ := (take_argument_eq_ok_iff hr).1 htake
        obtain ⟨hfollows, hused, hpending⟩ := (ih rfl hnodup hrest').1 hall
        exact ⟨⟨o, ho, hfollows⟩, by simpa using hused, hpending⟩
      · rintro ⟨⟨o, ho, hfollows⟩, hused, hpending⟩
        exact ⟨_, (take_argument_eq_ok_iff hr).2 ⟨hfresh s List.mem_cons_self, o, ho, rfl⟩,
          (ih rfl hnodup hrest').2 ⟨hfollows, by simpa using hused, hpending⟩⟩

/-! ## Variables -/

/-- The bytes of the variable of a setting, unless the setting was given as an argument. -/
def ofVariable? (env : Environment) (used : List Setting) (s : Setting) : Option Bytes :=
  if s ∈ used then none else env.get? s.variableName

/-- The variables of the settings that were not given are taken if the options can follow them. -/
theorem takeVariables_eq_ok_iff {env : Environment} {used settings : List Setting}
    {o o' : Options} (hnodup : settings.Nodup) :
    takeVariables env used o settings = .ok o' ↔
      o'.Follows (Setting.among settings (ofVariable? env used)) o.value := by
  induction settings generalizing o with
  | nil => rw [takeVariables, Options.follows_nil, Except.ok.injEq]
  | cons s settings ih =>
    obtain ⟨hs, hnodup⟩ := List.nodup_cons.1 hnodup
    rw [takeVariables]
    split
    · next hnone => rw [ih hnodup, Setting.among_cons_of_none hnone]
    · next value hsome =>
      rw [Options.follows_cons_of_some hs hsome]
      cases s.assign value o with
      | error reason => simp
      | ok o₁ => simp [ih hnodup]

end Reader

/-! ## All sources -/

section Sources

variable {flags vars : Setting → Option Bytes} {env : Environment} {given order : List Setting}
  {o : Options}

/-- A variable counts where there is no argument, so nothing is assigned twice. -/
theorem eq_none_or_ofVariable?_eq_none (hgiven : ∀ s, s ∈ given ↔ (flags s).isSome) (s : Setting) :
    flags s = none ∨ Reader.ofVariable? env given s = none := by
  cases hs : flags s with
  | none => exact Or.inl rfl
  | some value => exact Or.inr (if_pos ((hgiven s).2 (by simp [hs])))

theorem or_ofVariable? (hgiven : ∀ s, s ∈ given ↔ (flags s).isSome) (henv : env.Gives vars) :
    (fun s => (flags s).or (Reader.ofVariable? env given s)) = fun s => (flags s).or (vars s) := by
  funext s
  cases hs : flags s with
  | none => simp [Reader.ofVariable?, hgiven, hs, henv s]
  | some value => rfl

theorem parse_arguments_eq_ok_iff (horder : order.Perm Setting.all) (henv : env.Gives vars) :
    parse (arguments flags order) env = .ok o ↔
      o.Follows (fun s => (flags s).or (vars s)) Setting.defaultValue := by
  have hnodup : order.Nodup := horder.nodup_iff.2 (by decide)
  have hmem (s : Setting) : s ∈ order := horder.mem_iff.2 s.mem_all
  have hdefault : ({ } : Options).value = Setting.defaultValue := funext Setting.value_default
  let given := order.filter fun s => (flags s).isSome
  have hgiven (s : Setting) : s ∈ given ↔ (flags s).isSome := by simp [given, hmem]
  have harguments {r : Reader} : Reader.takeAll { } (arguments flags order) = .ok r ↔
      r.options.Follows flags Setting.defaultValue ∧ r.used = given ∧ r.pending? = none := by
    rw [Reader.takeAll_arguments_eq_ok_iff rfl hnodup (by simp), Setting.among_of_forall_mem hmem,
      hdefault, List.nil_append]
  have hvariables {o₁ : Options} : Reader.takeVariables env given o₁ Setting.all = .ok o ↔
      o.Follows (Reader.ofVariable? env given) o₁.value := by
    rw [Reader.takeVariables_eq_ok_iff (by decide), Setting.among_of_forall_mem Setting.mem_all]
  rw [← or_ofVariable? hgiven henv,
    ← Options.exists_follows_and_follows_iff (eq_none_or_ofVariable?_eq_none hgiven), parse,
    Except.bind_eq_ok_iff]
  constructor
  · rintro ⟨r, hr, hrest⟩
    obtain ⟨hfollows, hused, hpending⟩ := harguments.1 hr
    simp only [Reader.settle_of_none hpending, hused] at hrest
    exact ⟨r.options, hfollows, hvariables.1 hrest⟩
  · rintro ⟨o₁, hfollows, hrest⟩
    exact ⟨⟨o₁, given, none⟩, harguments.2 ⟨hfollows, rfl, rfl⟩, hvariables.2 hrest⟩

/-- What is written for the settings in some options. -/
def written (o : Options) (s : Setting) : Option Bytes :=
  (s.render o).map Utf8.encode

/-- Options follow what is written for them, unless a variable chooses a destination where they
choose none. -/
theorem follows_written (h : o.tcpDestination = none → vars .tcpDestination = none) :
    o.Follows (fun s => (written o s).or (vars s)) Setting.defaultValue := by
  intro s
  cases hs : s.render o with
  | some t =>
    simp only [written, hs, Option.map_some, Option.some_or]
    exact Setting.spells_render hs
  | none =>
    obtain ⟨rfl, hnone⟩ := Setting.eq_tcpDestination_of_render hs
    simp only [written, hs, Option.map_none, Option.none_or, h hnone]
    exact hnone

end Sources

/-- For each setting, let there be an argument, a variable, both or neither: any such choice is that
of some arguments and some environment. However the arguments are ordered, there are options if and
only if the bytes of each argument, and of each variable whose setting has no argument, spell a
value; and each setting then has the value of its argument, or else of its variable, or else its
default. The arguments that are written for some options give these options, unless they choose no
destination and a variable does. -/
theorem parse_resolves (flags vars : Setting → Option Bytes) {order : List Setting}
    (horder : order.Perm Setting.all) :
    (∃ env : Environment, env.Gives vars) ∧ ∀ env : Environment, env.Gives vars →
      ((∃ o, parse (arguments flags order) env = .ok o) ↔
        ∀ s value, (flags s).or (vars s) = some value → ∃ v, s.Spells value v) ∧
      (∀ o, parse (arguments flags order) env = .ok o ↔
        ∀ s : Setting, s.Resolves ((flags s).or (vars s)) s.defaultValue (o.value s)) ∧
      ∀ o : Options, (o.tcpDestination = none → vars .tcpDestination = none) →
        parse (arguments (written o) order) env = .ok o := by
  refine ⟨Environment.exists_gives vars, fun env henv =>
    ⟨?_, fun o => parse_arguments_eq_ok_iff horder henv, fun o hvars => ?_⟩⟩
  · simp only [parse_arguments_eq_ok_iff horder henv]
    exact Options.exists_follows_iff
  · exact (parse_arguments_eq_ok_iff horder henv).2 (follows_written hvars)

/-- A host that looks like an argument, and a port with a sign and leading zeros. -/
def mixedFlags : Setting → Option Bytes
  | .host => some (Utf8.encode "--port=1=2")
  | .port => some (Utf8.encode "+007")
  | _ => none

/-- A port that is no text, a name, and the greatest number of 64 bits. -/
def mixedVars : Setting → Option Bytes
  | .port => some [0xFF]
  | .jsonMode => some (Utf8.encode "compact")
  | .maxReplyBytes => some (Utf8.encode "18446744073709551615")
  | _ => none

/-- Variables in an order of their own, with one that is not looked at. -/
def mixedEnvironment : Environment :=
  [("BRIDGE_MAX_REPLY_BYTES", Utf8.encode "18446744073709551615"), ("BRIDGE_HOST", []),
    ("BRIDGE_HTTP_PORT", [0xFF]), ("BRIDGE_JSON_MODE", Utf8.encode "compact")]

/-- The arguments come from the last setting to the first, and the port has both sources. Then all
settings but the destination have arguments, and no variable counts. -/
theorem parse_resolves_mixedSources :
    Setting.all.reverse.Perm Setting.all ∧ mixedEnvironment.Gives mixedVars ∧
    parse (arguments mixedFlags Setting.all.reverse) mixedEnvironment = .ok
      { host := "--port=1=2", port := 7, jsonMode := .compact
        maxReplyBytes := 18446744073709551615 } ∧
    mixedVars .tcpDestination = none ∧
    parse (arguments (written { host := "", logFormat := .pretty }) Setting.all.reverse)
      mixedEnvironment = .ok { host := "", logFormat := .pretty } := by
  have horder : Setting.all.reverse.Perm Setting.all := List.reverse_perm _
  have henv : mixedEnvironment.Gives mixedVars := fun s => by cases s <;> decide
  obtain ⟨-, hresolves, hwritten⟩ := (parse_resolves mixedFlags mixedVars horder).2 _ henv
  refine ⟨horder, henv, (hresolves _).2 fun s => ?_, rfl, hwritten _ fun _ => rfl⟩
  cases s with
  | port =>
    exact ⟨"+007", rfl, .unsigned ⟨"007".toList, Or.inr rfl, by decide,
      List.all_eq_true.1 rfl, rfl⟩⟩
  | maxReplyBytes =>
    exact ⟨"18446744073709551615", rfl, _, Or.inl rfl, by decide, List.all_eq_true.1 rfl, rfl⟩
  | _ => rfl

end CommandLine

end FramedRelay
