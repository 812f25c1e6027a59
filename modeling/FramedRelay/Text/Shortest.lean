/-!
# Shortest decimals

A finite positive binary64 number is `mantissa * 2 ^ exponent`. The decimals that round to it
fill an interval, whose ends belong to it if the mantissa is even. `Shortest.decimal` is the
decimal of that interval with the fewest digits; of several it is the nearest to the number, and
of two equally near ones the one with the even last digit.

The search goes from coarse to fine grids `10 ^ k`. A grid with a point in the interval has one
next to the number, so on each grid two candidates suffice.
-/

namespace FramedRelay.Shortest

/-- The number `mantissa * 2 ^ exponent`. -/
structure Binary where
  mantissa : Nat
  exponent : Int
  deriving DecidableEq, Repr

/-- The number `digits * 10 ^ exponent`. -/
structure Decimal where
  digits : Nat
  exponent : Int
  deriving DecidableEq, Repr

/-- The highest bit of a mantissa, which only subnormal numbers lack. -/
def leadingBit : Nat := 0x10000000000000

/-- The magnitude of the finite number with the given bits. -/
def Binary.ofBits (bits : UInt64) : Binary :=
  let fraction : Nat := bits.toNat % leadingBit
  let field : Nat := bits.toNat / leadingBit % 2048
  if field = 0 then ⟨fraction, -1074⟩ else ⟨leadingBit + fraction, (field : Int) - 1075⟩

/-- The bits have the sign bit set. -/
def isNegative (bits : UInt64) : Bool := UInt64.size / 2 ≤ bits.toNat

namespace Binary

/-- The gap below the number is half the gap above it. -/
def isPowerBoundary (x : Binary) : Bool :=
  x.mantissa == leadingBit && x.exponent != -1074

/-- Four times the number, and the two ends of its interval likewise, in units of a quarter of
the last place. -/
def quarters (x : Binary) : Nat × Nat × Nat :=
  (4 * x.mantissa - (if x.isPowerBoundary then 1 else 2), 4 * x.mantissa, 4 * x.mantissa + 2)

/-- The candidate `c` on a grid whose points are `unit` apart lies in the interval from `low` to
`high`. -/
def admits (x : Binary) (low high unit c : Nat) : Bool :=
  if x.mantissa % 2 = 0 then low ≤ c * unit && c * unit ≤ high
  else low < c * unit && c * unit < high

/-- The best point of the grid `10 ^ k` in the interval, if there is one. -/
def onGrid? (x : Binary) (k : Int) : Option Nat :=
  let e := x.exponent - 2
  let scale := Nat.pow 2 e.toNat * Nat.pow 10 (-k).toNat
  let unit := Nat.pow 10 k.toNat * Nat.pow 2 (-e).toNat
  let (low, mid, high) := x.quarters
  let (low, mid, high) := (low * scale, mid * scale, high * scale)
  let below := mid / unit
  let nearBelow := mid % unit
  let nearAbove := unit - nearBelow
  match x.admits low high unit below, x.admits low high unit (below + 1) with
  | true, false => some below
  | false, true => some (below + 1)
  | false, false => none
  | true, true =>
    if nearBelow < nearAbove then some below
    else if nearAbove < nearBelow then some (below + 1)
    else some (if below % 2 = 0 then below else below + 1)

/-- The first hit on the grids `10 ^ k`, `10 ^ (k - 1)`, …, of `steps` grids. -/
def search (x : Binary) : Nat → Int → Option Decimal
  | 0, _ => none
  | steps + 1, k =>
    match x.onGrid? k with
    | some c => some ⟨c, k⟩
    | none => search x steps (k - 1)

/-- A grid too coarse to have a point other than zero in the interval. -/
def coarsest (x : Binary) : Int :=
  (x.mantissa.log2 + x.exponent + 1) * 30103 / 100000 + 2

/-- A finest grid on which the number itself lies. -/
def finest (x : Binary) : Int := min x.exponent 0

end Binary

/-- The number written out on a grid on which it lies. -/
def exact (x : Binary) : Decimal :=
  ⟨x.mantissa * Nat.pow 2 x.exponent.toNat * Nat.pow 5 (-x.exponent).toNat, x.finest⟩

/-- The shortest decimal that rounds to a positive number. -/
def decimal (x : Binary) : Decimal :=
  (x.search (x.coarsest - x.finest + 1).toNat x.coarsest).getD (exact x)

end FramedRelay.Shortest
