import ScriptLowering.Number.Binary64

/-!
# Decimal literals

The reader for decimal number text: an optional sign, then digits with an optional point and an
optional power of ten, or one of the words `inf`, `infinity` and `nan` in any case. A literal
denotes the nearest binary64 value, whatever the number of its digits.
-/

namespace ScriptLowering.Decimal

/-- The value of a digit string, most significant digit first. -/
def digitsValue (digits : List Char) : Nat :=
  digits.foldl (fun n c => 10 * n + (c.toNat - '0'.toNat)) 0

/-- A sign in front, if there is one, and what follows it. -/
def readSign : List Char → Bool × List Char
  | '-' :: rest => (true, rest)
  | '+' :: rest => (false, rest)
  | rest => (false, rest)

/-- The longest run of digits at the front, and what follows it. -/
def readDigits (text : List Char) : List Char × List Char :=
  (text.takeWhile Char.isDigit, text.dropWhile Char.isDigit)

/-- The exponent part that ends a literal; nothing may follow it. -/
def readExponent : List Char → Option Int
  | [] => some 0
  | c :: rest =>
    if c = 'e' ∨ c = 'E' then
      let (negative, rest) := readSign rest
      match readDigits rest with
      | ([], _) => none
      | (digits, []) =>
        let n : Int := digitsValue digits
        some (if negative then -n else n)
      | _ => none
    else none

/-- The number nearest to `mantissa * 10 ^ exponent`. Outside the two bounds the answer does not
depend on the digits: `10 ^ 310` is above every finite number, and `10 ^ -330` rounds to zero. -/
def nearest (negative : Bool) (mantissa : Nat) (exponent : Int) : Binary64 :=
  if mantissa = 0 then .zero negative
  else
    let magnitude : Int := (Nat.toDigits 10 mantissa).length + exponent
    if 310 < magnitude then .infinity negative
    else if magnitude < -330 then .zero negative
    else if 0 ≤ exponent then .ofRatio negative (mantissa * Nat.pow 10 exponent.toNat) 1
    else .ofRatio negative mantissa (Nat.pow 10 (-exponent).toNat)

/-- An unsigned literal made of digits: at least one digit stands before or after the point. -/
def readMagnitude (negative : Bool) (text : List Char) : Option Binary64 :=
  let (whole, rest) := readDigits text
  let (part, rest) := match rest with
    | '.' :: rest => readDigits rest
    | rest => ([], rest)
  if whole.isEmpty && part.isEmpty then none
  else (readExponent rest).map fun exponent =>
    nearest negative (digitsValue (whole ++ part)) (exponent - part.length)

/-- The number that a literal denotes. -/
def read? (text : String) : Option Binary64 :=
  let (negative, rest) := readSign text.toList
  let word := rest.map Char.toLower
  if word = ['i', 'n', 'f'] ∨ word = ['i', 'n', 'f', 'i', 'n', 'i', 't', 'y'] then
    some (.infinity negative)
  else if word = ['n', 'a', 'n'] then some (.nan negative)
  else readMagnitude negative rest

/-- The number of an integer literal. -/
def ofInt (n : Int) : Binary64 :=
  nearest (n < 0) n.natAbs 0

end ScriptLowering.Decimal

namespace ScriptLowering.Binary64

/-- A natural number as a JavaScript number. -/
def ofNat (n : Nat) : Binary64 :=
  Decimal.nearest false n 0

end ScriptLowering.Binary64
