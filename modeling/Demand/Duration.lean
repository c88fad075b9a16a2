/-! Lengths of time and how they are written.

A duration is written in the largest unit of which it holds at least one, with three decimals.
A half goes to the even neighbour, and rounding up never moves to the next unit, so that
`999999999` nanoseconds read `1000.000ms`. -/

namespace Demand

/-- A length of time in nanoseconds. -/
structure Duration where
  nanoseconds : Nat
deriving DecidableEq, Repr

namespace Duration

/-- So many seconds and nanoseconds, if the whole seconds have 64 bits. -/
def ofParts? (seconds nanoseconds : Nat) : Option Duration :=
  if seconds + nanoseconds / 1000000000 ≤ 18446744073709551615 then
    some ⟨seconds * 1000000000 + nanoseconds⟩
  else none

/-- What is said about parts that are too long for a duration. -/
def overflowMessage : String := "overflow in Duration::new"

/-- `n / d` to the nearest whole number, a half to the even one. -/
def roundHalfEven (n d : Nat) : Nat :=
  let q := n / d
  let r := n % d
  if d < 2 * r || (d == 2 * r && q % 2 == 1) then q + 1 else q

/-- The unit a duration is written in, with its length in nanoseconds. -/
def unit (t : Duration) : Nat × String :=
  if 1000000000 ≤ t.nanoseconds then (1000000000, "s")
  else if 1000000 ≤ t.nanoseconds then (1000000, "ms")
  else if 1000 ≤ t.nanoseconds then (1000, "µs")
  else (1, "ns")

/-- Three digits, with zeros in front. -/
def threeDigits (n : Nat) : String :=
  s!"{n / 100 % 10}{n / 10 % 10}{n % 10}"

/-- `1.500ms`. -/
def text (t : Duration) : String :=
  let (length, name) := t.unit
  let thousandths := roundHalfEven (t.nanoseconds * 1000) length
  s!"{thousandths / 1000}.{threeDigits thousandths}{name}"

end Duration

end Demand
