/-!
# Time

Spans and instants are counted in nanoseconds. A span is below `2 ^ 64` seconds and an instant
below `2 ^ 63` seconds, so sums are partial: `Span.add?` and `Instant.after?` have no value where
the clock's range ends.
-/

namespace FramedRelay

/-- A length of time in nanoseconds. -/
abbrev Span := Nat

/-- A reading of the clock, in nanoseconds from its start. -/
abbrev Instant := Nat

namespace Span

/-- One second. -/
def second : Span := 1000000000

def ofMillis (ms : Nat) : Span := 1000000 * ms

/-- The whole milliseconds of a span. -/
def millis (d : Span) : Nat := d / 1000000

/-- The sum of two spans, if it is one. -/
def add? (a b : Span) : Option Span :=
  if a + b < UInt64.size * second then some (a + b) else none

/-- `whole` units and `part` of a unit's `10 ^ places`, without zeros at the end. -/
def pointed (whole part places : Nat) : String :=
  let digits := (Nat.toDigits 10 (Nat.pow 10 places + part)).drop 1
  let kept := (digits.reverse.dropWhile (· == '0')).reverse
  if kept.isEmpty then toString whole else toString whole ++ "." ++ String.ofList kept

/-- A span in the largest unit of which it has at least one. -/
def describe (d : Span) : String :=
  if 1000000000 ≤ d then pointed (d / 1000000000) (d % 1000000000) 9 ++ "s"
  else if 1000000 ≤ d then pointed (d / 1000000) (d % 1000000) 6 ++ "ms"
  else if 1000 ≤ d then pointed (d / 1000) (d % 1000) 3 ++ "µs"
  else toString d ++ "ns"

end Span

/-- The instant a span later, if the clock can show it. -/
def Instant.after? (t : Instant) (d : Span) : Option Instant :=
  if t + d < UInt64.size / 2 * Span.second then some (t + d) else none

/-! ## Deadlines -/

/-- The instant by which a stage of the work must be over. -/
structure Deadline where
  due : Instant
  /-- What is being done, as the timeout error words it. -/
  stage : String
  deriving DecidableEq, Repr

/-- The deadline `limit` after `now`. -/
def Deadline.start? (now : Instant) (limit : Span) (stage : String) : Option Deadline :=
  (now.after? limit).map fun due => { due, stage }

/-- The time left at `now`: none once the deadline is reached. -/
def Deadline.left? (d : Deadline) (now : Instant) : Option Span :=
  if now < d.due then some (d.due - now) else none

end FramedRelay
