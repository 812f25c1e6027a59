import FramedRelay.Json.Skim
import FramedRelay.Text.Utf8
import FramedRelay.Json.Print

/-!
# Reading JSON texts

`read` gives the value that bytes denote. It wants what `skim` wants, and more: strings whose
bytes are text and whose escapes pair their surrogates, numbers that binary64 can hold, and fewer
than `depthLimit` brackets open at once.

The reader is `Read.State` with one step for each byte, like that of `skim` but with the values
gathered so far on its stack. Of two members with one key the later one counts.

An object whose first key is `embeddedKey` stands for another value: its only member is a string,
and the value is what the text of that string denotes.
-/

namespace FramedRelay.Json

/-- As many brackets as this cannot be open at once. -/
def depthLimit : Nat := 128

/-- The key of an object that stands for the value written in its only member. -/
def embeddedKey : String := "$serde_json::private::RawValue"

/-- The value of a hexadecimal digit. -/
def hexValue (b : UInt8) : Nat :=
  if isDigit b then b.toNat - 0x30 else if b < 0x60 then b.toNat - 0x37 else b.toNat - 0x57

/-- The byte that a one-letter escape stands for. -/
def unescapeLetter (b : UInt8) : UInt8 :=
  if b = 0x62 then 0x08
  else if b = 0x66 then 0x0C
  else if b = 0x6E then 0x0A
  else if b = 0x72 then 0x0D
  else if b = 0x74 then 0x09
  else b

/-- The value of a literal, by its first byte. -/
def literalValue (b : UInt8) : Value :=
  if b = 0x74 then .bool true else if b = 0x66 then .bool false else .null

namespace Read

/-! ## Strings -/

/-- Where a reader stands inside a string. -/
inductive Escape
  /-- Not in an escape. -/
  | none
  /-- After the backslash. -/
  | opened
  /-- In a numeric escape with `left + 1` bytes to go, of which those so far denote `unit?` or
  are no digits, after the escape of the leading surrogate `lead?`. -/
  | hex (lead? : Option Nat) (left : Nat) (unit? : Option Nat)
  /-- The escape that completes a surrogate pair must come. -/
  | needPair (lead : Nat)
  /-- That escape is opened. -/
  | openedPair (lead : Nat)
  deriving DecidableEq, Repr

/-- A string being read: its bytes so far, the last first. -/
structure Text where
  reversed : Bytes := []
  escape : Escape := .none
  deriving DecidableEq, Repr

namespace Text

/-- Takes a character. -/
def push (t : Text) (code : Nat) : Text :=
  { reversed := (String.utf8EncodeChar (Char.ofNat code)).reverse ++ t.reversed, escape := .none }

/-- Takes a whole numeric escape, alone or after a leading surrogate. -/
def pushUnit (t : Text) (lead? : Option Nat) (unit : Nat) : Except Fault Text :=
  match lead? with
  | none =>
    if 0xDC00 ≤ unit ∧ unit ≤ 0xDFFF then .error (.after .loneSurrogate)
    else if 0xD800 ≤ unit ∧ unit ≤ 0xDBFF then .ok { t with escape := .needPair unit }
    else .ok (t.push unit)
  | some lead =>
    if 0xDC00 ≤ unit ∧ unit ≤ 0xDFFF then
      .ok (t.push (0x10000 + (lead - 0xD800) * 0x400 + (unit - 0xDC00)))
    else .error (.after .loneSurrogate)

/-- The number denoted by the digits so far and one more. -/
def extendUnit (unit? : Option Nat) (b : UInt8) : Option Nat :=
  match unit? with
  | some unit => if isHexDigit b then some (16 * unit + hexValue b) else none
  | none => none

/-- A byte inside a string: the string after it, or nothing after the closing quote. -/
def step (t : Text) (b : UInt8) : Except Fault (Option Text) :=
  match t.escape with
  | .none =>
    if b = 0x22 then .ok none
    else if b = 0x5C then .ok (some { t with escape := .opened })
    else if b < 0x20 then .error (.after .controlCharacter)
    else .ok (some { t with reversed := b :: t.reversed })
  | .opened =>
    if b = 0x75 then .ok (some { t with escape := .hex none 3 (some 0) })
    else if isEscapeLetter b then
      .ok (some { reversed := unescapeLetter b :: t.reversed, escape := .none })
    else .error (.after .invalidEscape)
  | .hex lead? (left + 1) unit? =>
    .ok (some { t with escape := .hex lead? left (extendUnit unit? b) })
  | .hex lead? 0 unit? =>
    match extendUnit unit? b with
    | none => .error (.after .invalidEscape)
    | some unit => (t.pushUnit lead? unit).map some
  | .needPair lead =>
    if b = 0x5C then .ok (some { t with escape := .openedPair lead })
    else .error (.after .halfSurrogatePair)
  | .openedPair lead =>
    if b = 0x75 then .ok (some { t with escape := .hex (some lead) 3 (some 0) })
    else .error (.after .halfSurrogatePair)

/-- The text of a whole string. -/
def finish? (t : Text) : Option String :=
  Utf8.decode? t.reversed.reverse

end Text

/-! ## Values -/

/-- An open bracket, with what it holds so far. -/
inductive Frame
  /-- An array with its items, the last first. -/
  | array (items : List Value)
  /-- An object with its members before the key whose value comes. -/
  | object (members : Members) (key : String)
  /-- An object that stands for an embedded value. -/
  | embedded

/-- What a string is. -/
inductive Role
  /-- A key, the first of its object if there are no members. -/
  | key (members : Members) (first : Bool)
  | value

/-- Where a reader stands, with the brackets open there, the innermost first. -/
inductive State
  /-- A value must come. -/
  | value (stack : List Frame)
  /-- After an opening bracket. -/
  | arrayStart (stack : List Frame)
  /-- After an item and a comma. -/
  | arrayMore (items : List Value) (stack : List Frame)
  /-- After an item. -/
  | arrayNext (items : List Value) (stack : List Frame)
  /-- After an opening brace. -/
  | objectStart (stack : List Frame)
  /-- After a member and a comma. -/
  | objectMore (members : Members) (stack : List Frame)
  /-- After a member. -/
  | objectNext (members : Members) (stack : List Frame)
  /-- After the member of an object that stands for an embedded value. -/
  | embeddedNext (v : Value) (stack : List Frame)
  /-- After a key that opens this frame. -/
  | colon (frame : Frame) (stack : List Frame)
  /-- In the literal of a value with these bytes to go. -/
  | literal (left : Bytes) (v : Value) (stack : List Frame)
  | number (n : Numeral) (stack : List Frame)
  | string (role : Role) (text : Text) (stack : List Frame)
  /-- After the whole text. -/
  | done (v : Value)

/-- The name of a value that stands where an embedded one must. -/
def describe : Value → String
  | .null => "null"
  | .bool true => "boolean `true`"
  | .bool false => "boolean `false`"
  | .number (.integer n) =>
    "integer `" ++ String.ofList (Number.integer n).text ++ "`"
  | .number (.float x) => "floating point `" ++ String.ofList (floatText x) ++ "`"
  | .string _ => "string"
  | .array _ => "sequence"
  | .object _ => "map"

/-- The frame that a key opens. -/
def openMember (members : Members) (first : Bool) (key : String) : Frame :=
  if first ∧ key = embeddedKey then .embedded else .object members key

/-- The innermost object stands for an embedded value. -/
def atEmbedded : List Frame → Bool
  | .embedded :: _ => true
  | _ => false

section

-- `nested` reads the text of an embedded value.
variable (nested : String → Except Error Value)

/-- The state after a value; `fault` says where a value of the wrong kind is reported. -/
def afterValue (fault : Cause → Fault) (v : Value) : List Frame → Except Fault State
  | [] => .ok (.done v)
  | .array items :: stack => .ok (.arrayNext (v :: items) stack)
  | .object members key :: stack => .ok (.objectNext (members.insert key v) stack)
  | .embedded :: stack =>
    match v with
    | .string s =>
      match nested s with
      | .ok v => .ok (.embeddedNext v stack)
      | .error e => .error (.embedded e)
    | v => .error (fault (.notEmbedded (describe v)))

/-- Opens a bracket, unless too many are open. -/
def descend (state : List Frame → State) (stack : List Frame) : Except Fault State :=
  if stack.length + 1 < depthLimit then .ok (state stack) else .error (.after .tooDeep)

/-- A byte that starts a value, or is at fault. -/
def startValue (stack : List Frame) (b : UInt8) : Except Fault State :=
  if b = 0x5B then
    if atEmbedded stack then .error (.before (.notEmbedded (describe (.array []))))
    else descend .arrayStart stack
  else if b = 0x7B then
    if atEmbedded stack then .error (.before (.notEmbedded (describe (.object []))))
    else descend .objectStart stack
  else if b = 0x22 then .ok (.string .value { } stack)
  else match Numeral.start? b with
    | some n => .ok (.number n stack)
    | none => match literalTail? b with
      | some left => .ok (.literal left (literalValue b) stack)
      | none => .error (.after .expectedValue)

/-- A byte between tokens. -/
def State.structural (s : State) (b : UInt8) : Except Fault State :=
  match s with
  | .value stack => startValue stack b
  | .arrayStart stack =>
    if b = 0x5D then afterValue nested .after (.array []) stack
    else startValue (.array [] :: stack) b
  | .arrayMore items stack =>
    if b = 0x5D then .error (.after .trailingComma) else startValue (.array items :: stack) b
  | .arrayNext items stack =>
    if b = 0x2C then .ok (.arrayMore items stack)
    else if b = 0x5D then afterValue nested .after (.array items.reverse) stack
    else .error (.after .expectedCommaOrBracket)
  | .objectStart stack =>
    if b = 0x7D then afterValue nested .after (.object []) stack
    else if b = 0x22 then .ok (.string (.key [] true) { } stack)
    else .error (.after .keyNotString)
  | .objectMore members stack =>
    if b = 0x22 then .ok (.string (.key members false) { } stack)
    else if b = 0x7D then .error (.after .trailingComma)
    else .error (.after .keyNotString)
  | .objectNext members stack =>
    if b = 0x2C then .ok (.objectMore members stack)
    else if b = 0x7D then afterValue nested .after (.object members) stack
    else .error (.after .expectedCommaOrBrace)
  | .embeddedNext v stack =>
    if b = 0x7D then afterValue nested .after v stack
    else if b = 0x2C then .error (.after .trailingComma)
    else .error (.after .trailingCharacters)
  | .colon frame stack =>
    if b = 0x3A then .ok (.value (frame :: stack)) else .error (.after .expectedColon)
  | _ => .error (.after .trailingCharacters)

/-- A byte between tokens, where blanks are skipped. -/
def State.between (s : State) (b : UInt8) : Except Fault State :=
  if isSpace b then .ok s else s.structural nested b

/-- The value of a number that has ended. -/
def numberValue (n : Numeral) : Except Cause Value :=
  match n.value? with
  | some x => .ok (.number x)
  | none => .error .numberOutOfRange

/-- One byte. -/
def State.step (s : State) (b : UInt8) : Except Fault State :=
  match s with
  | .literal left v stack =>
    match left with
    | [] => (afterValue nested .before v stack).bind fun s => s.between nested b
    | l :: left =>
      if b = l then
        if left.isEmpty then afterValue nested .after v stack else .ok (.literal left v stack)
      else .error (.after .expectedLiteral)
  | .number n stack =>
    match n.step b with
    | .more n => .ok (.number n stack)
    | .refused cause => .error (.after cause)
    | .ended =>
      match numberValue n with
      | .error cause => .error (.before cause)
      | .ok v => (afterValue nested .before v stack).bind fun s => s.between nested b
  | .string role text stack =>
    match text.step b with
    | .error f => .error f
    | .ok (some text) => .ok (.string role text stack)
    | .ok none =>
      match text.finish?, role with
      | none, _ => .error (.after .invalidText)
      | some key, .key members first => .ok (.colon (openMember members first key) stack)
      | some s, .value => afterValue nested .after (.string s) stack
  | s => s.between nested b

/-- The value of the text if it may end here, or why it may not. -/
def State.finish : State → Except Cause Value
  | .done v => .ok v
  | .value _ | .arrayMore .. | .objectMore .. => .error .endInValue
  | .arrayStart _ | .arrayNext .. => .error .endInArray
  | .objectStart _ | .objectNext .. | .embeddedNext .. | .colon .. => .error .endInObject
  | .literal .. => .error .endInValue
  | .string .. => .error .endInString
  | .number n stack =>
    if n.phase.complete then
      match numberValue n, stack with
      | .error cause, _ => .error cause
      | .ok v, [] => .ok v
      | .ok _, .array _ :: _ => .error .endInArray
      | .ok _, .object .. :: _ => .error .endInObject
      | .ok v, .embedded :: _ => .error (.notEmbedded (describe v))
    else .error .endInValue

end

end Read

/-- Reads a JSON text in which embedded values are read by `nested`. -/
def readWith (nested : String → Except Error Value) (bs : Bytes) : Except Error Value :=
  match feed (Read.State.step nested) (.value []) bs with
  | .error (fault, rest) => .error (fault.toError bs rest)
  | .ok s =>
    match s.finish with
    | .ok v => .ok v
    | .error cause => .error (cause.at bs)

/-- Reads a JSON text with values embedded in one another `levels` deep. -/
def readNested : Nat → Bytes → Except Error Value
  | 0, bs => .error (Cause.tooDeep.at bs)
  | levels + 1, bs => readWith (fun s => readNested levels (Utf8.encode s)) bs

/-- Reads a JSON text. A text embedded in another is shorter than it, so the length of the outer
one bounds how deep they can be embedded. -/
def read (bs : Bytes) : Except Error Value :=
  readNested (bs.length + 1) bs

end FramedRelay.Json
