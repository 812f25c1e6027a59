import FramedRelay.Json.Numeral

/-!
# Checking JSON texts

`skim` decides whether bytes are one JSON text, of any depth and with any numbers, without
keeping what they denote. Inside strings it wants no control characters and escapes of the right
form, and nothing of the text they stand for.

The reader is `Skim.State` with one step for each byte. Its stack is the list of brackets still
open, so neither deep nesting nor long texts need more than a list.
-/

namespace FramedRelay.Json

/-- Blank space between the tokens of a JSON text. -/
def isSpace (b : UInt8) : Bool := b == 0x20 || b == 0x0A || b == 0x09 || b == 0x0D

/-- A hexadecimal digit. -/
def isHexDigit (b : UInt8) : Bool :=
  isDigit b || (0x41 ≤ b && b ≤ 0x46) || (0x61 ≤ b && b ≤ 0x66)

/-- The letter of a one-letter escape. -/
def isEscapeLetter (b : UInt8) : Bool :=
  b == 0x22 || b == 0x5C || b == 0x2F || b == 0x62 || b == 0x66 || b == 0x6E || b == 0x72 ||
    b == 0x74

/-- The literal that starts with a byte, without that byte. -/
def literalTail? (b : UInt8) : Option Bytes :=
  if b = 0x6E then some [0x75, 0x6C, 0x6C]
  else if b = 0x74 then some [0x72, 0x75, 0x65]
  else if b = 0x66 then some [0x61, 0x6C, 0x73, 0x65]
  else none

namespace Skim

/-- An open bracket. -/
inductive Bracket
  | array | object
  deriving DecidableEq, Repr

/-- Where a reader stands inside a string. -/
inductive Escape
  /-- Not in an escape. -/
  | none
  /-- After the backslash. -/
  | opened
  /-- In a numeric escape with `left + 1` bytes to go; `valid` if those so far are digits. -/
  | hex (left : Nat) (valid : Bool)
  deriving DecidableEq, Repr

/-- What a string is. -/
inductive Role
  | key | value
  deriving DecidableEq, Repr

/-- Where a reader stands, with the brackets open there, the innermost first. -/
inductive State
  /-- A value must come. -/
  | value (stack : List Bracket)
  /-- After an opening bracket. -/
  | arrayStart (stack : List Bracket)
  /-- After an opening brace. -/
  | objectStart (stack : List Bracket)
  /-- After an item. -/
  | arrayNext (stack : List Bracket)
  /-- After a member. -/
  | objectNext (stack : List Bracket)
  /-- A key must come. -/
  | key (stack : List Bracket)
  /-- After a key. -/
  | colon (stack : List Bracket)
  /-- In a literal with these bytes to go. -/
  | literal (left : Bytes) (stack : List Bracket)
  | number (phase : Numeral.Phase) (stack : List Bracket)
  | string (role : Role) (escape : Escape) (stack : List Bracket)
  /-- After the whole text. -/
  | done
  deriving DecidableEq, Repr

/-- The state after a value. -/
def State.afterValue : List Bracket → State
  | [] => .done
  | .array :: stack => .arrayNext stack
  | .object :: stack => .objectNext stack

/-- A byte that starts a value, or is at fault. -/
def startValue (stack : List Bracket) (b : UInt8) : Except Fault State :=
  if b = 0x5B then .ok (.arrayStart stack)
  else if b = 0x7B then .ok (.objectStart stack)
  else if b = 0x22 then .ok (.string .value .none stack)
  else match Numeral.Phase.start? b with
    | some phase => .ok (.number phase stack)
    | none => match literalTail? b with
      | some left => .ok (.literal left stack)
      | none => .error (.after .expectedValue)

/-- A byte inside a string: where the reader stands after it, or nothing after the closing
quote. -/
def Escape.step : Escape → UInt8 → Except Fault (Option Escape)
  | .none, b =>
    if b = 0x22 then .ok Option.none
    else if b = 0x5C then .ok (some .opened)
    else if b < 0x20 then .error (.before .controlCharacter)
    else .ok (some .none)
  | .opened, b =>
    if b = 0x75 then .ok (some (.hex 3 true))
    else if isEscapeLetter b then .ok (some .none)
    else .error (.after .invalidEscape)
  | .hex (left + 1) valid, b => .ok (some (.hex left (valid && isHexDigit b)))
  | .hex 0 valid, b =>
    if valid && isHexDigit b then .ok (some .none) else .error (.after .invalidEscape)

/-- A byte between tokens. -/
def State.structural (s : State) (b : UInt8) : Except Fault State :=
  match s with
  | .value stack => startValue stack b
  | .arrayStart stack =>
    if b = 0x5D then .ok (.afterValue stack) else startValue (.array :: stack) b
  | .objectStart stack =>
    if b = 0x7D then .ok (.afterValue stack)
    else if b = 0x22 then .ok (.string .key .none stack)
    else .error (.after .keyNotString)
  | .arrayNext stack =>
    if b = 0x2C then .ok (.value (.array :: stack))
    else if b = 0x5D then .ok (.afterValue stack)
    else .error (.after .expectedCommaOrBracket)
  | .objectNext stack =>
    if b = 0x2C then .ok (.key stack)
    else if b = 0x7D then .ok (.afterValue stack)
    else .error (.after .expectedCommaOrBrace)
  | .key stack =>
    if b = 0x22 then .ok (.string .key .none stack) else .error (.after .keyNotString)
  | .colon stack =>
    if b = 0x3A then .ok (.value (.object :: stack)) else .error (.after .expectedColon)
  | _ => .error (.after .trailingCharacters)

/-- A byte between tokens, where blanks are skipped. -/
def State.between (s : State) (b : UInt8) : Except Fault State :=
  if isSpace b then .ok s else s.structural b

/-- One byte. -/
def State.step (s : State) (b : UInt8) : Except Fault State :=
  match s with
  | .literal left stack =>
    match left with
    | [] => (State.afterValue stack).between b
    | l :: left =>
      if b = l then .ok (if left.isEmpty then .afterValue stack else .literal left stack)
      else .error (.after .expectedLiteral)
  | .number phase stack =>
    match phase.step b with
    | .more phase => .ok (.number phase stack)
    | .ended => (State.afterValue stack).between b
    | .refused cause => .error (.after cause)
  | .string role escape stack =>
    match escape.step b with
    | .error f => .error f
    | .ok (some escape) => .ok (.string role escape stack)
    | .ok Option.none =>
      match role with
      | .key => .ok (.colon stack)
      | .value => .ok (.afterValue stack)
  | s => s.between b

/-- The text may end here, or why it may not. -/
def State.finish : State → Except Cause Unit
  | .done => .ok ()
  | .value _ => .error .endInValue
  | .arrayStart _ | .arrayNext _ => .error .endInArray
  | .objectStart _ | .objectNext _ | .key _ | .colon _ => .error .endInObject
  | .literal .. => .error .endInValue
  | .string .. => .error .endInString
  | .number phase stack =>
    if phase.complete then
      match stack with
      | [] => .ok ()
      | .array :: _ => .error .endInArray
      | .object :: _ => .error .endInObject
    else .error .invalidNumber

end Skim

/-- Decides whether bytes are one JSON text. -/
def skim (bs : Bytes) : Except Error Unit :=
  match feed Skim.State.step (.value []) bs with
  | .error (fault, rest) => .error (fault.toError bs rest)
  | .ok s =>
    match s.finish with
    | .ok () => .ok ()
    | .error cause => .error (cause.at bs)

end FramedRelay.Json
