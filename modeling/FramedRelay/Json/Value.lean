/-!
# JSON values

A `Json.Value ν` is what a JSON text denotes, with numbers of type `ν`. The relay rounds numbers to
what it keeps, a `Json.Number`: integers of 64 bits exactly, all others as binary64. It keeps the
members of an object in the order of their keys, one for each key (`Members.insert`).
-/

namespace FramedRelay.Json

/-- A number as the relay keeps it. -/
inductive Number
  | integer (n : Int)
  | float (x : Float)

/-- What a JSON text denotes. -/
inductive Value (ν : Type := Number)
  | null
  | bool (b : Bool)
  | number (n : ν)
  | string (s : String)
  | array (items : List (Value ν))
  | object (members : List (String × Value ν))

/-- The members of an object. -/
abbrev Members (ν : Type := Number) := List (String × Value ν)

/-- Gives `key` the value `v`, in place of the value it had. -/
def Members.insert {ν : Type} (key : String) (v : Value ν) : Members ν → Members ν
  | [] => [(key, v)]
  | (k, w) :: rest =>
    if key < k then (key, v) :: (k, w) :: rest
    else if k < key then (k, w) :: Members.insert key v rest
    else (key, v) :: rest

end FramedRelay.Json

