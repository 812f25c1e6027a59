/-!
# Decimal numbers in text

`Decimal.read` reads an unsigned number below a limit, `Decimal.readSigned` a signed 64-bit one.
Both take an optional plus sign, any number of leading zeros, and report the first thing that
goes wrong from left to right.
-/

namespace FramedRelay.Decimal

/-- Why a text is no number in range. -/
inductive Fault
  | empty
  | invalidDigit
  | tooLarge
  | tooSmall
  deriving DecidableEq, Repr

/-- The wording of a fault. -/
def Fault.message : Fault → String
  | .empty => "cannot parse integer from empty string"
  | .invalidDigit => "invalid digit found in string"
  | .tooLarge => "number too large to fit in target type"
  | .tooSmall => "number too small to fit in target type"

/-- The value of a digit. -/
def digit (c : Char) : Nat := c.toNat - '0'.toNat

/-- The number `value` followed by the digits `cs`, all of whose leading parts must stay below
`limit`; otherwise the fault `excess`. -/
def extend (limit : Nat) (excess : Fault) (value : Nat) : List Char → Except Fault Nat
  | [] => .ok value
  | c :: cs =>
    if c.isDigit then
      let value' := 10 * value + digit c
      if value' < limit then extend limit excess value' cs else .error excess
    else .error .invalidDigit

/-- At least one digit, denoting a number below `limit`. -/
def digits (limit : Nat) (excess : Fault) : List Char → Except Fault Nat
  | [] => .error .invalidDigit
  | c :: cs => extend limit excess 0 (c :: cs)

/-- An optional plus sign and digits denoting a number below `limit`. -/
def read (limit : Nat) : List Char → Except Fault Nat
  | [] => .error .empty
  | '+' :: cs => digits limit .tooLarge cs
  | cs => digits limit .tooLarge cs

/-- An optional sign and digits denoting a signed 64-bit number. -/
def readSigned : List Char → Except Fault Int
  | [] => .error .empty
  | '+' :: cs => (digits (UInt64.size / 2) .tooLarge cs).map Int.ofNat
  | '-' :: cs => (digits (UInt64.size / 2 + 1) .tooSmall cs).map fun n => -Int.ofNat n
  | cs => (digits (UInt64.size / 2) .tooLarge cs).map Int.ofNat

end FramedRelay.Decimal
