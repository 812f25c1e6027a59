import FramedRelay.Bytes

/-!
# Errors in JSON texts

A reader takes a JSON text byte by byte. A `Fault` is what a byte does to it when the text cannot
go on: the cause, and whether the byte itself counts as read. `Error` is the cause with the line
and the column that the reader has reached, both found by `locate` from the bytes read so far.
-/

namespace FramedRelay.Json

/-- Why bytes are no JSON text, or no text that the relay takes. -/
inductive Cause
  | endInValue
  | endInArray
  | endInObject
  | endInString
  | expectedColon
  | expectedCommaOrBracket
  | expectedCommaOrBrace
  | expectedLiteral
  | expectedValue
  | invalidEscape
  | invalidNumber
  | numberOutOfRange
  | invalidText
  | controlCharacter
  | keyNotString
  | trailingComma
  | trailingCharacters
  | halfSurrogatePair
  | loneSurrogate
  | tooDeep
  /-- Something else where the text of an embedded value must stand. -/
  | notEmbedded (found : String)
  deriving DecidableEq, Repr

/-- The wording of a cause. -/
def Cause.message : Cause → String
  | .endInValue => "EOF while parsing a value"
  | .endInArray => "EOF while parsing a list"
  | .endInObject => "EOF while parsing an object"
  | .endInString => "EOF while parsing a string"
  | .expectedColon => "expected `:`"
  | .expectedCommaOrBracket => "expected `,` or `]`"
  | .expectedCommaOrBrace => "expected `,` or `\x7d`"
  | .expectedLiteral => "expected ident"
  | .expectedValue => "expected value"
  | .invalidEscape => "invalid escape"
  | .invalidNumber => "invalid number"
  | .numberOutOfRange => "number out of range"
  | .invalidText => "invalid unicode code point"
  | .controlCharacter => "control character (\\u0000-\\u001F) found while parsing a string"
  | .keyNotString => "key must be a string"
  | .trailingComma => "trailing comma"
  | .trailingCharacters => "trailing characters"
  | .halfSurrogatePair => "unexpected end of hex escape"
  | .loneSurrogate => "lone leading surrogate in hex escape"
  | .tooDeep => "recursion limit exceeded"
  | .notEmbedded found => "invalid type: " ++ found ++ ", expected raw value"

/-- Where a reader gives up. -/
structure Error where
  cause : Cause
  line : Nat
  column : Nat
  deriving DecidableEq, Repr

/-- The wording of an error. -/
def Error.message (e : Error) : String :=
  e.cause.message ++ " at line " ++ toString e.line ++ " column " ++ toString e.column

/-- What a byte that cannot be taken does to a reader. -/
inductive Fault
  /-- The byte is not counted as read. -/
  | before (cause : Cause)
  /-- The byte is counted as read. -/
  | after (cause : Cause)
  /-- The text of an embedded value is at fault, at a place of its own. -/
  | embedded (error : Error)
  deriving DecidableEq, Repr

/-- The line and the column after some bytes: lines count from one, columns are the bytes since
the last line feed. -/
def locate (read : Bytes) : Nat × Nat :=
  (1 + read.count lineFeed, (read.reverse.takeWhile (· != lineFeed)).length)

/-- The error of a cause after some bytes. -/
def Cause.at (cause : Cause) (read : Bytes) : Error :=
  ⟨cause, (locate read).1, (locate read).2⟩

/-! ## Running a reader -/

variable {σ : Type}

/-- Feeds bytes to a reader until they end or one of them is at fault; then the fault and the
bytes from that one on. -/
def feed (step : σ → UInt8 → Except Fault σ) : σ → Bytes → Except (Fault × Bytes) σ
  | s, [] => .ok s
  | s, b :: bs =>
    match step s b with
    | .ok s' => feed step s' bs
    | .error f => .error (f, b :: bs)

/-- The error of a fault that leaves `rest` of the bytes `all`. -/
def Fault.toError (all rest : Bytes) : Fault → Error
  | .before cause => cause.at (all.take (all.length - rest.length))
  | .after cause => cause.at (all.take (all.length - rest.length + 1))
  | .embedded error => error

end FramedRelay.Json
