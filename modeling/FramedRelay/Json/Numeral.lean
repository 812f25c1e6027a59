import FramedRelay.Json.Value
import FramedRelay.Json.Error

/-!
# Numbers in JSON texts

`Numeral.Phase` is the automaton of the number grammar: a minus sign or none, an integer without
leading zeros, a fraction or none, an exponent or none. `Numeral` runs beside it and gathers the
value.

The significant digits are gathered in 64 bits. A digit of the integer that no longer fits is
dropped for a factor of ten (`scale`), one of the fraction is dropped. An integer of which no
digit was dropped is exact if 64 bits hold it with its sign; minus zero is not an integer. Every
other number is the binary64 value of the digits, multiplied or divided by a power of ten
(`Numeral.scaled?`).
-/

namespace FramedRelay.Json

/-- An ASCII digit. -/
def isDigit (b : UInt8) : Bool := 0x30 ≤ b && b ≤ 0x39

/-- The value of a digit. -/
def digitValue (b : UInt8) : Nat := b.toNat - 0x30

namespace Numeral

/-! ## The grammar -/

/-- Where a reader stands inside a number, named for what comes before. -/
inductive Phase
  | minus | zero | integer | point | fraction | mark | sign | exponent
  deriving DecidableEq, Repr

/-- What a byte does to a reader inside a number. -/
inductive Turn (α : Type)
  /-- The byte belongs to the number. -/
  | more (next : α)
  /-- The number ends before the byte. -/
  | ended
  /-- The byte rules the number out. -/
  | refused (cause : Cause)

namespace Phase

/-- The phase after the first byte of a number. -/
def start? (b : UInt8) : Option Phase :=
  if b = 0x2D then some .minus
  else if b = 0x30 then some .zero
  else if isDigit b then some .integer
  else none

/-- A byte after a whole integer. -/
def afterInteger (b : UInt8) : Turn Phase :=
  if b = 0x2E then .more .point
  else if b = 0x65 ∨ b = 0x45 then .more .mark
  else .ended

/-- A byte where a digit must stand. -/
def needDigit (b : UInt8) (next : Phase) : Turn Phase :=
  if isDigit b then .more next else .refused .invalidNumber

def step : Phase → UInt8 → Turn Phase
  | minus, b => if b = 0x30 then .more zero else needDigit b integer
  | zero, b => if isDigit b then .refused .invalidNumber else afterInteger b
  | integer, b => if isDigit b then .more integer else afterInteger b
  | point, b => needDigit b fraction
  | fraction, b =>
    if isDigit b then .more fraction
    else if b = 0x65 ∨ b = 0x45 then .more mark
    else .ended
  | mark, b => if b = 0x2B ∨ b = 0x2D then .more sign else needDigit b exponent
  | sign, b => needDigit b exponent
  | exponent, b => if isDigit b then .more exponent else .ended

/-- The bytes so far are a number. -/
def complete : Phase → Bool
  | zero | integer | fraction | exponent => true
  | minus | point | mark | sign => false

end Phase

end Numeral

/-! ## The value -/

/-- A number being read. -/
structure Numeral where
  phase : Numeral.Phase
  negative : Bool
  /-- The digits gathered. -/
  significand : Nat := 0
  /-- The power of ten that the digits gathered stand for. -/
  scale : Int := 0
  /-- A digit of the current part was dropped. -/
  full : Bool := false
  exponentNegative : Bool := false
  exponent : Nat := 0
  /-- The exponent is so far below zero, or the digits are so small, that the value is zero. -/
  vanished : Bool := false

namespace Numeral

/-- The digits gathered stay below this. -/
def significandLimit : Nat := UInt64.size

/-- An exponent in digits stays below this. -/
def exponentLimit : Nat := UInt32.size / 2

/-- The number after its first byte. -/
def start? (b : UInt8) : Option Numeral :=
  (Phase.start? b).map fun phase =>
    { phase, negative := b == 0x2D, significand := if phase = .minus then 0 else digitValue b }

/-- Gathers a digit of the integer. -/
def pushInteger (n : Numeral) (d : Nat) : Numeral :=
  if n.full ∨ significandLimit ≤ 10 * n.significand + d then
    { n with full := true, scale := n.scale + 1 }
  else { n with significand := 10 * n.significand + d }

/-- Gathers a digit of the fraction. -/
def pushFraction (n : Numeral) (d : Nat) : Numeral :=
  if n.full ∨ significandLimit ≤ 10 * n.significand + d then { n with full := true }
  else { n with significand := 10 * n.significand + d, scale := n.scale - 1 }

/-- Gathers a digit of the exponent, unless that makes the number too large. -/
def pushExponent? (n : Numeral) (d : Nat) : Option Numeral :=
  if n.vanished then some n
  else if exponentLimit ≤ 10 * n.exponent + d then
    if n.significand = 0 ∨ n.exponentNegative then some { n with vanished := true } else none
  else some { n with exponent := 10 * n.exponent + d }

/-- The number after a byte that takes it to a phase. -/
def enter (n : Numeral) (phase : Phase) (b : UInt8) : Turn Numeral :=
  let n' := { n with phase }
  match phase with
  | .minus | .mark => .more n'
  | .zero | .integer => .more (n'.pushInteger (digitValue b))
  | .point => .more { n' with full := false }
  | .fraction => .more (n'.pushFraction (digitValue b))
  | .sign => .more { n' with exponentNegative := b == 0x2D }
  | .exponent =>
    match n'.pushExponent? (digitValue b) with
    | some n'' => .more n''
    | none => .refused .numberOutOfRange

def step (n : Numeral) (b : UInt8) : Turn Numeral :=
  match n.phase.step b with
  | .more phase => n.enter phase b
  | .ended => .ended
  | .refused cause => .refused cause

/-! ## Scaling by powers of ten -/

/-- The greatest power of ten in one multiplication. -/
def powerLimit : Nat := 308

/-- A power of ten, rounded. -/
def power (n : Nat) : Float := Float.ofScientific 1 false n

/-- `x` times a power of ten, unless that is too large. -/
def raise? (x : Float) (n : Nat) : Option Float :=
  if n ≤ powerLimit then
    let y := x * power n
    if y.isInf then none else some y
  else if x == 0 then some x
  else none

/-- `x` divided by a power of ten, by the greatest one first while more is left. -/
def lower (x : Float) (n : Nat) : Float :=
  if n ≤ powerLimit then x / power n
  else if x == 0 then x
  else lower (x / power powerLimit) (n - powerLimit)
termination_by n
decreasing_by simp [powerLimit] at *; omega

/-- The digits `significand` times a power of ten, unless that is too large. -/
def scaled? (significand : Nat) (exponent : Int) : Option Float :=
  let x := (UInt64.ofNat significand).toFloat
  if 0 ≤ exponent then raise? x exponent.toNat else some (lower x exponent.natAbs)

/-- The exponent that the digits gathered have in the end. -/
def finalExponent (n : Numeral) : Int :=
  if n.exponentNegative then n.scale - n.exponent else n.scale + n.exponent

/-- The number is written as an integer, and no digit of it was dropped. -/
def isInteger (n : Numeral) : Bool :=
  (n.phase == .zero || n.phase == .integer) && !n.full

/-- The value of a whole number, unless it is too large. -/
def value? (n : Numeral) : Option Number :=
  let signed (x : Float) : Number := .float (if n.negative then -x else x)
  if n.isInteger then
    if !n.negative then some (.integer n.significand)
    else if n.significand = 0 ∨ UInt64.size / 2 < n.significand then
      some (signed (UInt64.ofNat n.significand).toFloat)
    else some (.integer (-n.significand))
  else if n.vanished then some (signed 0)
  else (scaled? n.significand n.finalExponent).map signed

end Numeral

end FramedRelay.Json
