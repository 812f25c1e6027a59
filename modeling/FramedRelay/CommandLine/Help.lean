import FramedRelay.CommandLine.Setting

/-!
# Help

What the program says about itself: its name and version, how it is used, and an explanation of
its settings, on one line for each or at length. The explanation shows the values that the
environment gives to settings.
-/

namespace FramedRelay

/-- The variables of the environment. -/
abbrev Environment := List (String × Bytes)

/-- The value of a variable. -/
def Environment.get? (env : Environment) (name : String) : Option Bytes :=
  (env.find? fun v => v.1 == name).map Prod.snd

namespace CommandLine

/-- The name of the program. -/
def programName : String := "vsock-bridge"

/-- The name and the version of the program. -/
def versionText : String := programName ++ " 0.1.0\n"

/-- How the program is used with some arguments. -/
def usageText (arguments : List String) : String :=
  "Usage: " ++ programName ++ " " ++
    (if arguments.isEmpty then "[OPTIONS]" else " ".intercalate arguments)

/-- The argument that asks for help, and the one that asks for the version. -/
inductive Inquiry
  | help
  | version
  deriving DecidableEq, Repr

def Inquiry.flag : Inquiry → String
  | .help => "help"
  | .version => "version"

/-- The one-letter form of an inquiry. -/
def Inquiry.letter : Inquiry → Char
  | .help => 'h'
  | .version => 'V'

/-! ## Explanations -/

/-- What precedes every line of an explanation. -/
def margin : String := "          "

/-- What a setting is for, if that needs saying. -/
def summary? : Setting → Option String
  | .tcpDestination => some "Forward to a TCP host:port instead of vsock"
  | _ => none

/-- The variable of a setting, with its value. -/
def variableNote (env : Environment) (s : Setting) : String :=
  "[env: " ++ s.variableName ++ "=" ++
    Utf8.decodeLossy ((env.get? s.variableName).getD []) ++ "]"

/-- The value that a setting has if none is given. -/
def defaultNote? (s : Setting) : Option String :=
  (s.render { }).map fun v => "[default: " ++ v ++ "]"

/-- The values that a setting can have, by name. -/
def choicesNote? (s : Setting) : Option String :=
  if s.choices.isEmpty then none
  else some ("[possible values: " ++ ", ".intercalate (s.choices.map Choice.name) ++ "]")

/-- Lines with the margin before each but the first. -/
def indented (text : String) : String :=
  String.ofList (text.toList.flatMap fun c => if c = '\n' then '\n' :: margin.toList else [c])

/-- The meanings of the values that a setting can have. -/
def choicesText (s : Setting) : String :=
  let width := s.choices.foldl (fun w c => max w c.name.length) 0
  let line (c : Choice) :=
    let gap := String.ofList (List.replicate (width - c.name.length + 1) ' ')
    margin ++ "- " ++ c.name ++ ":" ++ gap ++ c.meaning ++ "\n"
  if s.choices.isEmpty then ""
  else "\n" ++ margin ++ "Possible values:\n" ++ String.join (s.choices.map line)

/-- The explanation of a setting on one line. -/
def briefly (env : Environment) (s : Setting) : String :=
  let notes := [summary? s, some (variableNote env s), defaultNote? s, choicesNote? s]
  "      " ++ s.usage ++ "\n" ++ margin ++
    indented (" ".intercalate (notes.filterMap id)) ++ "\n"

/-- The explanation of a setting at length. -/
def atLength (env : Environment) (s : Setting) : String :=
  let notes := "\n".intercalate ([some (variableNote env s), defaultNote? s].filterMap id)
  let text := match summary? s with
    | some summary => summary ++ "\n\n" ++ notes
    | none => notes
  "      " ++ s.usage ++ "\n" ++ margin ++ indented text ++ "\n" ++ choicesText s ++ "\n"

/-- The explanation of the whole program. -/
def helpText (env : Environment) (long : Bool) : String :=
  let settings := String.join (Setting.all.map (if long then atLength env else briefly env))
  let gap := if long then "\n" else ""
  let other := if long then "a summary with '-h'" else "more with '--help'"
  usageText [] ++ "\n\nOptions:\n" ++ settings ++
    "  -h, --help\n" ++ margin ++ "Print help (see " ++ other ++ ")\n" ++ gap ++
    "  -V, --version\n" ++ margin ++ "Print version\n"

end CommandLine

end FramedRelay
