import DotLambda.Text.Fixed

namespace DotLambda

/-!
# Durations

Spans of time in nanoseconds, and how they are written: below a second in the largest unit that
leaves a whole part, from a second on in hours, minutes and seconds.  Fractions are written with
all the digits that they have and no more.
-/

/-- A span of time in nanoseconds. -/
structure Duration where
  nanoseconds : Int

namespace Duration

/-- `n / 10 ^ places` in decimal, without zeros at its end. -/
def trimmedFraction (places n : Nat) : String :=
  let unit := Nat.pow 10 places
  let digits := (zeroPadded places (n % unit)).toList.reverse.dropWhile (· == '0')
  let whole := toString (n / unit)
  if digits.isEmpty then whole else whole ++ "." ++ String.ofList digits.reverse

/-- The nanoseconds of a second. -/
def second : Nat := 1000000000

/-- A number of nanoseconds. -/
def writeNatural (n : Nat) : String :=
  if n = 0 then "0s"
  else if n < 1000 then toString n ++ "ns"
  else if n < 1000000 then trimmedFraction 3 n ++ "µs"
  else if n < second then trimmedFraction 6 n ++ "ms"
  else
    let minutes := n / (60 * second)
    let seconds := trimmedFraction 9 (n % (60 * second)) ++ "s"
    if minutes = 0 then seconds
    else if minutes < 60 then toString minutes ++ "m" ++ seconds
    else toString (minutes / 60) ++ "h" ++ toString (minutes % 60) ++ "m" ++ seconds

/-- A duration as it is shown. -/
def write (d : Duration) : String :=
  (if d.nanoseconds < 0 then "-" else "") ++ writeNatural d.nanoseconds.natAbs

/-- A duration that is not negative in seconds: whole seconds and the fraction are turned into
    floats apart and then added. -/
def seconds (d : Duration) : Float :=
  let n := d.nanoseconds.toNat
  (n / second).toUInt64.toFloat + (n % second).toUInt64.toFloat / second.toUInt64.toFloat

/-- `n` per second over the duration, with two places; nothing unless time has passed. -/
def rate? (d : Duration) (n : UInt64) : Option String :=
  if d.nanoseconds ≤ 0 then none
  else
    let (num, den) := floatFraction (n.toFloat / d.seconds)
    some (fixedPlaces 2 num den)

end Duration

end DotLambda
