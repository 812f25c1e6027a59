import FramedRelay.CommandLine.Help

/-!
# Outcomes of reading the command line

Reading the command line ends with options or with a `Diversion`: the program was asked about
itself, or an argument is wrong. `Diversion.message` is what the program then prints.
-/

namespace FramedRelay.CommandLine

/-- Why reading the command line does not end with options. -/
inductive Diversion
  /-- Help was asked for, at length or not. -/
  | help (long : Bool)
  | version
  /-- An argument is not known; before it, `used` was given. -/
  | unknown (argument : String) (used : List Setting)
  /-- A value was given to an inquiry; before it, `used` was given. -/
  | needless (inquiry : Inquiry) (value : String) (used : List Setting)
  | missing (s : Setting)
  | repeated (s : Setting)
  | refused (s : Setting) (value : Bytes) (reason : Setting.Refusal)
  deriving DecidableEq, Repr

namespace Diversion

/-- The values that can be chosen, on a line of their own. -/
def choicesLine (s : Setting) : String :=
  match choicesNote? s with
  | some note => "\n  " ++ note
  | none => ""

/-- A value is wanted. -/
def wanted (s : Setting) : String :=
  "a value is required for '" ++ s.usage ++ "' but none was supplied" ++ choicesLine s

/-- A value is refused. -/
def unfit (s : Setting) (value : Bytes) : String :=
  "invalid value '" ++ Utf8.decodeLossy value ++ "' for '" ++ s.usage ++ "'"

/-- A usage note after a message. -/
def withUsage (text : String) (arguments : List String) : String :=
  text ++ "\n\n" ++ usageText arguments

/-- What is wrong with the command line. -/
def complaint : Diversion → String
  | help _ | version => ""
  | unknown argument used =>
    withUsage ("unexpected argument '" ++ argument ++ "' found") (used.map Setting.usage)
  | needless inquiry value used =>
    let flag := "--" ++ inquiry.flag
    withUsage ("unexpected value '" ++ value ++ "' for '" ++ flag ++
      "' found; no more were expected") (used.map Setting.usage ++ [flag])
  | missing s => wanted s
  | repeated s =>
    withUsage ("the argument '" ++ s.usage ++ "' cannot be used multiple times") []
  | refused s value reason =>
    match reason with
    | .notText => withUsage "invalid UTF-8 was detected in one or more arguments" []
    | .notListed => if value.isEmpty then wanted s else unfit s value ++ choicesLine s
    | .badNumber fault => unfit s value ++ ": " ++ fault.message
    | .outOfRange n greatest =>
      unfit s value ++ ": " ++ toString n ++ " is not in 0..=" ++ toString greatest

/-- What the program prints. -/
def message (env : Environment) : Diversion → String
  | help long => helpText env long
  | version => versionText
  | d => "error: " ++ d.complaint ++ "\n\nFor more information, try '--help'.\n"

/-- The program was asked about itself, and has not failed. -/
def isAnswer : Diversion → Bool
  | help _ | version => true
  | _ => false

end Diversion

end FramedRelay.CommandLine
