import ScriptLowering.Number.Binary64

/-!
# Shortest decimal digits

The text of a number is the shortest decimal that reads back as the same number, and of those the
one nearest to it. It is written positionally, without an exponent and without a trailing point.

The reals that round to a finite number form an interval around it, closed when the significand is
even. All bounds are held as integers over one common denominator, so every comparison is exact.
-/

namespace ScriptLowering.Binary64

/-- The interval of reals that round to a positive finite number, over a common denominator. -/
structure RoundingInterval where
  /-- Numerator of the lower end. -/
  lower : Nat
  /-- Numerator of the number itself. -/
  value : Nat
  /-- Numerator of the upper end. -/
  upper : Nat
  /-- The common denominator. -/
  den : Nat
  /-- The ends belong to the interval. -/
  closed : Bool

/-- The rounding interval of `|x|`. The gap below a power of two is half as wide as the gap above,
except at the smallest scale. -/
def roundingInterval (x : Binary64) : RoundingInterval :=
  let m := 4 * x.significand
  let below := if x.fraction = 0 ∧ 1 < x.exponentField then 1 else 2
  -- quarters of the last bit weigh `2 ^ (scale - 1077)`
  let up := Nat.pow 2 (x.scale - 1077)
  { lower := (m - below) * up
    value := m * up
    upper := (m + 2) * up
    den := Nat.pow 2 (1077 - x.scale)
    closed := x.significand % 2 == 0 }

/-- The decimal `digits * 10 ^ (power - 400)` lies in the interval. -/
def RoundingInterval.admits (i : RoundingInterval) (digits power : Nat) : Bool :=
  let point := digits * Nat.pow 10 (power - 400) * i.den
  let stretch := Nat.pow 10 (400 - power)
  if i.closed then i.lower * stretch ≤ point && point ≤ i.upper * stretch
  else i.lower * stretch < point && point < i.upper * stretch

/-- Twice the distance from the number to the grid point below, compared with the grid's width: the
number is nearer to the point above, or half way. -/
def RoundingInterval.roundsUp (i : RoundingInterval) (digits power : Nat) : Bool :=
  let grid := Nat.pow 10 (power - 400) * i.den
  let stretch := Nat.pow 10 (400 - power)
  (2 * digits + 1) * grid ≤ 2 * (i.value * stretch)

/-- The grid of `10 ^ (power - 400)`: of the two neighbours of the number that lie in the interval,
the nearer one. -/
def RoundingInterval.onGrid (i : RoundingInterval) (power : Nat) : Option Nat :=
  let digits := i.value * Nat.pow 10 (400 - power) / (Nat.pow 10 (power - 400) * i.den)
  match i.admits digits power, i.admits (digits + 1) power with
  | true, true => some (if i.roundsUp digits power then digits + 1 else digits)
  | true, false => some digits
  | false, true => some (digits + 1)
  | false, false => none

/-- The number of decimal digits of a positive number below `2 ^ 50000`. The binary logarithm gives
it up to one. -/
def digitCount (n : Nat) : Nat :=
  let least := n.log2 * 30102 / 100000 + 1
  if n < Nat.pow 10 least then least else least + 1

/-- Digits and power of ten, raised by 400, of the shortest decimal in the interval. Seventeen
digits always suffice. -/
def RoundingInterval.shortest (i : RoundingInterval) : Nat × Nat :=
  let places := digitCount (i.value * Nat.pow 10 400 / i.den)
  let found := (List.range 17).findSome? fun n =>
    (i.onGrid (places - 1 - n)).map fun digits => (digits, places - 1 - n)
  found.getD (0, 400)

/-- A digit string without the zeros at its end, and how many there were. -/
def trimZeros (digits : List Char) : List Char × Nat :=
  let kept := (digits.reverse.dropWhile (· == '0')).reverse
  (kept, digits.length - kept.length)

/-- The decimal `digits * 10 ^ (power - 400)` in positional notation. -/
def positional (digits : List Char) (power : Nat) : List Char :=
  if 400 ≤ power then digits ++ List.replicate (power - 400) '0'
  else
    let places := 400 - power
    if places < digits.length then
      digits.take (digits.length - places) ++ '.' :: digits.drop (digits.length - places)
    else '0' :: '.' :: (List.replicate (places - digits.length) '0' ++ digits)

/-- The text of the magnitude of a finite number. -/
def magnitudeText (x : Binary64) : String :=
  if x.significand = 0 then "0"
  else
    let (digits, power) := x.roundingInterval.shortest
    let (kept, zeros) := trimZeros (Nat.toDigits 10 digits)
    String.ofList (positional kept (power + zeros))

/-- The text of a number: the shortest positional decimal, with a sign also on negative zero; the
remaining numbers are `NaN`, `inf` and `-inf`. -/
def text (x : Binary64) : String :=
  if x.isNaN then "NaN"
  else
    let sign := if x.isNegative then "-" else ""
    sign ++ (if x.isFinite then x.magnitudeText else "inf")

end ScriptLowering.Binary64
