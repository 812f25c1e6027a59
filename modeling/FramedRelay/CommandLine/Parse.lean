import FramedRelay.CommandLine.Outcome

/-!
# Reading the command line

`parse` reads the arguments from left to right. A setting is given as `--name=value` or as
`--name value`, at most once. A value that follows its name is read when the next argument needs
the reader to be done with it, so that argument can be at fault first. Help and the version are
given as soon as they are asked for. After the arguments, settings that were not given take the
value of their environment variable; the others keep their default.
-/

namespace FramedRelay.CommandLine

/-- How far the command line has been read. -/
structure Reader where
  options : Options := { }
  /-- The settings given, in order. -/
  used : List Setting := []
  /-- A setting that is not done with, and its value if it has come. -/
  pending? : Option (Setting × Option Bytes) := none
  deriving DecidableEq, Repr

namespace Reader

/-- Gives a setting a value that stands in an argument. The reader is given even if that fails. -/
def give (r : Reader) (s : Setting) (value : Bytes) : Reader × Except Diversion Unit :=
  if s ∈ r.used then ({ r with used := r.used.erase s }, .error (.repeated s))
  else
    let r := { r with used := r.used ++ [s] }
    match s.assign value r.options with
    | .ok options => ({ r with options }, .ok ())
    | .error reason => (r, .error (.refused s value reason))

/-- Is done with the pending setting. -/
def settle (r : Reader) : Reader × Except Diversion Unit :=
  let r' := { r with pending? := none }
  match r.pending? with
  | none => (r', .ok ())
  | some (s, none) => (r', .error (.missing s))
  | some (s, some value) => r'.give s value

/-- Fails for an unknown argument that starts with two dashes. -/
def unknownLong (r : Reader) (name : String) : Except Diversion Reader :=
  .error (.unknown ("--" ++ name) r.settle.1.used)

/-- The setting with a name. -/
def settingNamed? (name : Bytes) : Option Setting :=
  Setting.all.find? fun s => Utf8.encode s.flag == name

/-- The inquiry with a name. -/
def inquiryNamed? (name : Bytes) : Option Inquiry :=
  [Inquiry.help, Inquiry.version].find? fun q => Utf8.encode q.flag == name

/-- Answers an inquiry. -/
def inquire (r : Reader) (q : Inquiry) (long : Bool) : Except Diversion Reader :=
  match r.settle.2 with
  | .error d => .error d
  | .ok () => match q with
    | .help => .error (.help long)
    | .version => .error .version

/-- An argument that starts with two dashes, split at the first equals sign. -/
def takeLong (r : Reader) (name : Bytes) (value? : Option Bytes) : Except Diversion Reader :=
  match settingNamed? name, inquiryNamed? name with
  | some s, _ =>
    match r.settle with
    | (_, .error d) => .error d
    | (r, .ok ()) =>
      match value? with
      | none => .ok { r with pending? := some (s, none) }
      | some value =>
        match r.give s value with
        | (r, .ok ()) => .ok r
        | (_, .error d) => .error d
  | none, some q =>
    match value? with
    | some value => .error (.needless q (Utf8.decodeLossy value) r.used)
    | none => r.inquire q true
  | none, none => r.unknownLong (Utf8.decodeLossy name)

/-- An argument of letters after one dash. -/
def takeLetters (r : Reader) (letters : Bytes) : Except Diversion Reader :=
  match letters with
  | 0x68 :: _ => r.inquire .help false
  | 0x56 :: _ => r.inquire .version false
  | _ => .error (.unknown ("-" ++ firstLetter letters) [])
where
  /-- The first character of some bytes, or all of them if they start with no character. -/
  firstLetter (bs : Bytes) : String :=
    match [1, 2, 3, 4].findSome? fun n => Utf8.decode? (bs.take n) with
    | some s => s
    | none => Utf8.decodeLossy bs

/-- An argument that starts with no dash, or is one. -/
def takeValue (r : Reader) (value : Bytes) : Except Diversion Reader :=
  match r.pending? with
  | some (s, none) => .ok { r with pending? := some (s, some value) }
  | _ => .error (.unknown (Utf8.decodeLossy value) [])

/-- What comes before the first equals sign, and after it if there is one. -/
def splitValue (argument : Bytes) : Bytes × Option Bytes :=
  (argument.takeWhile (· != 0x3D),
    match argument.dropWhile (· != 0x3D) with
    | [] => none
    | _ :: value => some value)

/-- One argument other than two dashes. -/
def take (r : Reader) (argument : Bytes) : Except Diversion Reader :=
  match argument with
  | 0x2D :: 0x2D :: c :: cs =>
    let (name, value?) := splitValue (c :: cs)
    r.takeLong name value?
  | 0x2D :: c :: cs => r.takeLetters (c :: cs)
  | _ => r.takeValue argument

/-- The arguments, of which none may follow two dashes. -/
def takeAll (r : Reader) : List Bytes → Except Diversion Reader
  | [] => .ok r
  | argument :: rest =>
    if argument = [0x2D, 0x2D] then
      match rest with
      | [] => .ok r
      | extra :: _ => .error (.unknown (Utf8.decodeLossy extra) [])
    else do (← r.take argument).takeAll rest

/-- Gives the settings that were not given the values of their variables. -/
def takeVariables (env : Environment) (used : List Setting) (o : Options) :
    List Setting → Except Diversion Options
  | [] => .ok o
  | s :: rest =>
    match (if s ∈ used then none else env.get? s.variableName) with
    | none => takeVariables env used o rest
    | some value =>
      match s.assign value o with
      | .ok o => takeVariables env used o rest
      | .error reason => .error (.refused s value reason)

end Reader

/-- The options that arguments and environment give. -/
def parse (arguments : List Bytes) (env : Environment) : Except Diversion Options := do
  let r ← Reader.takeAll { } arguments
  match r.settle with
  | (_, .error d) => .error d
  | (r, .ok ()) => Reader.takeVariables env r.used r.options Setting.all

end FramedRelay.CommandLine
