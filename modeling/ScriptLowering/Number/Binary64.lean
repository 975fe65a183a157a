/-!
# Binary floating-point numbers

A JavaScript number is an IEEE 754 binary64 value, kept here as its bit pattern. Two numbers are
equal as data exactly when their bits are, so the two zeros are told apart and a NaN equals itself;
arithmetic is the business of the machine that runs the code and does not appear in this library.

A finite number is `significand * 2 ^ exponent` up to sign. `Binary64.ofRatio` goes the other way:
it rounds a nonnegative rational to the nearest number, a half to the even neighbour, which is the
rule by which decimal literals are read.
-/

namespace ScriptLowering

/-- A binary64 value as its 64 bits: sign, 11 bits of biased exponent, 52 bits of fraction. -/
structure Binary64 where
  /-- The bit pattern, below `2 ^ 64`. -/
  bits : Nat
deriving DecidableEq, Inhabited

namespace Binary64

/-- The sign bit. -/
def isNegative (x : Binary64) : Bool :=
  x.bits / Nat.pow 2 63 % 2 == 1

/-- The biased exponent field. -/
def exponentField (x : Binary64) : Nat :=
  x.bits / Nat.pow 2 52 % Nat.pow 2 11

/-- The fraction field. -/
def fraction (x : Binary64) : Nat :=
  x.bits % Nat.pow 2 52

/-- The pattern with the given sign, exponent field and fraction field. -/
def ofFields (negative : Bool) (exponentField fraction : Nat) : Binary64 :=
  ⟨(if negative then Nat.pow 2 63 else 0) + exponentField * Nat.pow 2 52 + fraction⟩

/-- Zero of the given sign. -/
def zero (negative : Bool) : Binary64 :=
  ofFields negative 0 0

/-- Infinity of the given sign. -/
def infinity (negative : Bool) : Binary64 :=
  ofFields negative 2047 0

/-- The quiet NaN of the given sign. -/
def nan (negative : Bool) : Binary64 :=
  ofFields negative 2047 (Nat.pow 2 51)

/-- The all-ones exponent field marks the infinities and the NaNs. -/
def isFinite (x : Binary64) : Bool :=
  x.exponentField != 2047

/-- Neither finite nor infinite. -/
def isNaN (x : Binary64) : Bool :=
  x.exponentField == 2047 && x.fraction != 0

/-- The integer `m` with `|x| = m * 2 ^ (x.scale - 1075)` for a finite `x`; a normal number carries
an implicit leading bit. -/
def significand (x : Binary64) : Nat :=
  if x.exponentField = 0 then x.fraction else Nat.pow 2 52 + x.fraction

/-- The binary exponent of the last bit of the significand, raised by 1075. Subnormal numbers share
the scale of the smallest normal ones. -/
def scale (x : Binary64) : Nat :=
  if x.exponentField = 0 then 1 else x.exponentField

/-- The quotient `num / den` rounded to an integer, a half going to the even neighbour. -/
def roundHalfEven (num den : Nat) : Nat :=
  let q := num / den
  let twice := 2 * (num % den)
  if twice < den then q
  else if den < twice then q + 1
  else q + q % 2

/-- The number `significand * 2 ^ (scale - 1075)`, for a significand of at most `2 ^ 53` that is
below `2 ^ 52` only at the smallest scale. Exponents out of range give infinity. -/
def ofSignificand (negative : Bool) (significand scale : Nat) : Binary64 :=
  let carried := significand == Nat.pow 2 53
  let m := if carried then Nat.pow 2 52 else significand
  let s := if carried then scale + 1 else scale
  if m < Nat.pow 2 52 then ofFields negative 0 m
  else if 2047 ≤ s then infinity negative
  else ofFields negative s (m - Nat.pow 2 52)

/-- The number nearest to `num / den` for positive `num` and `den`, a half going to the number with
the even significand. The scale is the least one at which the quotient has 53 bits. -/
def ofRatio (negative : Bool) (num den : Nat) : Binary64 :=
  -- a difference cut off at zero stands for a scale below the least one, where it does not matter
  let raised := 1075 + num.log2 - den.log2 - 53
  let scaled (s : Nat) : Nat × Nat :=
    if s ≤ 1075 then (num * Nat.pow 2 (1075 - s), den) else (num, den * Nat.pow 2 (s - 1075))
  let (n, d) := scaled raised
  let fitted := if Nat.pow 2 53 ≤ n / d then raised + 1 else raised
  let s := max fitted 1
  let (n, d) := scaled s
  ofSignificand negative (roundHalfEven n d) s

end Binary64

end ScriptLowering
