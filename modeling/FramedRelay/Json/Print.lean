import FramedRelay.Json.Value
import FramedRelay.Text.Shortest
import FramedRelay.Text.Utf8

/-!
# Printing JSON

`Value.print` writes a value on one line without blanks. Strings escape the quote, the backslash
and the control characters below the space; everything else stands for itself. Integers are
decimal, and other numbers are the shortest decimal that rounds to them: written out if the point
falls no more than 16 digits after the first digit or 4 zeros before it, and with an exponent
otherwise. A number of the second kind always has a point or an exponent.
-/

namespace FramedRelay.Json

/-! ## Strings -/

/-- The hexadecimal digit of a number below 16. -/
def hexDigit (n : Nat) : Char :=
  if n < 10 then Char.ofNat (48 + n) else Char.ofNat (87 + n)

/-- A character inside a string literal. -/
def escape (c : Char) : List Char :=
  match c with
  | '"' => ['\\', '"']
  | '\\' => ['\\', '\\']
  | '\x08' => ['\\', 'b']
  | '\x0c' => ['\\', 'f']
  | '\n' => ['\\', 'n']
  | '\r' => ['\\', 'r']
  | '\t' => ['\\', 't']
  | c =>
    if c.toNat < 32 then ['\\', 'u', '0', '0', hexDigit (c.toNat / 16), hexDigit (c.toNat % 16)]
    else [c]

/-- The string literal of a text. -/
def quote (s : String) : List Char :=
  '"' :: s.toList.flatMap escape ++ ['"']

/-! ## Numbers -/

/-- How a decimal is laid out. -/
structure Layout where
  /-- The point may stand up to this many digits after the first digit. -/
  digitsBefore : Int
  /-- Up to this many zeros may stand between the point and the first digit. -/
  zerosAfter : Int

/-- The layout of JSON numbers. -/
def layout : Layout := ⟨16, 4⟩

/-- An exponent in decimal. -/
def exponentText (e : Int) : List Char :=
  if e < 0 then '-' :: Nat.toDigits 10 e.natAbs else Nat.toDigits 10 e.natAbs

/-- A positive decimal in a layout. -/
def Layout.write (l : Layout) (d : Shortest.Decimal) : List Char :=
  let digits := Nat.toDigits 10 d.digits
  let point := digits.length + d.exponent
  if 0 ≤ d.exponent ∧ point ≤ l.digitsBefore then
    digits ++ List.replicate d.exponent.toNat '0' ++ ['.', '0']
  else if 0 < point ∧ point ≤ l.digitsBefore then
    digits.take point.toNat ++ '.' :: digits.drop point.toNat
  else if -l.zerosAfter ≤ point ∧ point ≤ 0 then
    '0' :: '.' :: List.replicate (-point).toNat '0' ++ digits
  else match digits with
    | [c] => c :: 'e' :: exponentText (point - 1)
    | c :: cs => c :: '.' :: cs ++ 'e' :: exponentText (point - 1)
    | [] => []

/-- A finite binary64 number. -/
def floatText (x : Float) : List Char :=
  let magnitude := Shortest.Binary.ofBits x.toBits
  let text := if magnitude.mantissa = 0 then ['0', '.', '0']
    else layout.write (Shortest.decimal magnitude)
  if Shortest.isNegative x.toBits then '-' :: text else text

/-- A number. -/
def Number.text : Number → List Char
  | .integer n => if n < 0 then '-' :: Nat.toDigits 10 n.natAbs else Nat.toDigits 10 n.natAbs
  | .float x => floatText x

/-! ## Values -/

mutual

/-- The text of a value. -/
def Value.text : Value → List Char
  | .null => ['n', 'u', 'l', 'l']
  | .bool true => ['t', 'r', 'u', 'e']
  | .bool false => ['f', 'a', 'l', 's', 'e']
  | .number n => n.text
  | .string s => quote s
  | .array [] => ['[', ']']
  | .array (v :: vs) => '[' :: v.text ++ Value.itemsText vs
  | .object [] => ['{', '}']
  | .object ((k, v) :: ms) => '{' :: quote k ++ ':' :: v.text ++ Value.membersText ms

/-- The items after the first, and the closing bracket. -/
def Value.itemsText : List Value → List Char
  | [] => [']']
  | v :: vs => ',' :: v.text ++ Value.itemsText vs

/-- The members after the first, and the closing brace. -/
def Value.membersText : List (String × Value) → List Char
  | [] => ['}']
  | (k, v) :: ms => ',' :: quote k ++ ':' :: v.text ++ Value.membersText ms

end

/-- The bytes of a value. -/
def Value.print (v : Value) : Bytes :=
  v.text.flatMap String.utf8EncodeChar

end FramedRelay.Json
