import FramedRelay.Failure
import FramedRelay.Text.Blank
import FramedRelay.Text.Decimal
import FramedRelay.Bytes

/-!
# Headers

The headers of a request, and the one that the relay reads: `contentLength` is the length that a
request announces for its body. Only the first header of that name counts. Its value must be
printable ASCII, and between blanks a decimal number below `2 ^ 64`.
-/

namespace FramedRelay.Http

/-- Names and values, in order. -/
abbrev Headers := List (String × Bytes)

/-- Two header names are the same but for the case of ASCII letters. -/
def sameName (a b : String) : Bool :=
  a.toList.map Char.toLower == b.toList.map Char.toLower

/-- The first value of a name. -/
def Headers.first? (hs : Headers) (name : String) : Option Bytes :=
  (hs.find? fun h => sameName h.1 name).map Prod.snd

/-- A printable ASCII character or a tab. -/
def isVisible (b : UInt8) : Bool := b == 0x09 || (0x20 ≤ b && b ≤ 0x7E)

/-- The text of a value, if all of it is visible. -/
def visible? (value : Bytes) : Option (List Char) :=
  if value.all isVisible then some (value.map fun b => Char.ofNat b.toNat) else none

/-- The number written in a value. -/
def lengthOf? (value : Bytes) : Option Nat :=
  (visible? value).bind fun cs => (Decimal.read UInt64.size (trimBlanks cs)).toOption

/-- The length announced for the body of a request, if it does not exceed `limit`. -/
def contentLength (hs : Headers) (limit : Nat) : Except Failure Nat :=
  match hs.first? "content-length" with
  | none => .error (.malformedInput "missing Content-Length header")
  | some value =>
    match lengthOf? value with
    | none => .error (.malformedInput "invalid Content-Length header")
    | some n => if limit < n then .error (.requestTooLarge n limit) else .ok n

end FramedRelay.Http
