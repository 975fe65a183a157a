/-!
# JSON tokens

The lexical level of JSON text: punctuation, strings, numbers and the three words, with blanks
between them. Blanks separate tokens and mean nothing, so a text is valid only if its tokens are.

A string token carries the text it denotes. Escapes may name UTF-16 surrogates; a string with a
surrogate that has no partner is well-formed JSON but denotes no text.
-/

namespace ScriptLowering.Json

/-- A token of JSON text. -/
inductive Token where
  | openObject
  | closeObject
  | openArray
  | closeArray
  | colon
  | comma
  /-- A string, and the text it denotes if there is one. -/
  | string (text : Option String)
  /-- A natural number written without sign, fraction and exponent. -/
  | natural (value : Nat)
  /-- Any other number. -/
  | number
  | bool (value : Bool)
  | null
deriving DecidableEq, Inhabited

/-- Blanks between tokens. -/
def isBlank (c : Char) : Bool :=
  c == ' ' || c == '\n' || c == '\t' || c == '\r'

/-! ### Strings -/

/-- The value of a hexadecimal digit. -/
def hexDigit? (c : Char) : Option Nat :=
  if '0' ≤ c ∧ c ≤ '9' then some (c.toNat - '0'.toNat)
  else if 'a' ≤ c ∧ c ≤ 'f' then some (c.toNat - 'a'.toNat + 10)
  else if 'A' ≤ c ∧ c ≤ 'F' then some (c.toNat - 'A'.toNat + 10)
  else none

/-- The UTF-16 unit that four hexadecimal digits name. -/
def unit? (a b c d : Char) : Option Nat := do
  return (((← hexDigit? a) * 16 + (← hexDigit? b)) * 16 + (← hexDigit? c)) * 16 + (← hexDigit? d)

/-- The character of a short escape. -/
def shortEscape? (c : Char) : Option Char :=
  match c with
  | '"' | '\\' | '/' => some c
  | 'b' => some '\x08'
  | 'f' => some '\x0c'
  | 'n' => some '\n'
  | 'r' => some '\r'
  | 't' => some '\t'
  | _ => none

/-- The units of a string up to its closing quote, and what follows. A character outside an escape
stands for itself, as a number beyond the units when it is not one of them. Controls must be
escaped. -/
def readUnits : List Char → Option (List Nat × List Char)
  | [] => none
  | '"' :: rest => some ([], rest)
  | '\\' :: 'u' :: a :: b :: c :: d :: rest => do
    let unit ← unit? a b c d
    let (units, rest) ← readUnits rest
    return (unit :: units, rest)
  | '\\' :: c :: rest => do
    let escaped ← shortEscape? c
    let (units, rest) ← readUnits rest
    return (escaped.toNat :: units, rest)
  | c :: rest => do
    if c = '\\' ∨ c.toNat < 0x20 then none
    let (units, rest) ← readUnits rest
    return (c.toNat :: units, rest)

/-- The first of a pair of surrogates. -/
def isHighSurrogate (unit : Nat) : Bool :=
  0xd800 ≤ unit && unit < 0xdc00

/-- The second of a pair of surrogates. -/
def isLowSurrogate (unit : Nat) : Bool :=
  0xdc00 ≤ unit && unit < 0xe000

/-- The characters that units denote. Two surrogates make one character, and none stands alone. -/
def decodeUnits : List Nat → Option (List Char)
  | [] => some []
  | high :: low :: rest =>
    if isHighSurrogate high then
      if isLowSurrogate low then
        (decodeUnits rest).map
          (Char.ofNat (0x10000 + (high - 0xd800) * 0x400 + (low - 0xdc00)) :: ·)
      else none
    else if isLowSurrogate high then none
    else (decodeUnits (low :: rest)).map (Char.ofNat high :: ·)
  | [unit] =>
    if isHighSurrogate unit || isLowSurrogate unit then none else some [Char.ofNat unit]

/-! ### Numbers -/

/-- The longest run of digits at the front, and what follows it. -/
def splitDigits (text : List Char) : List Char × List Char :=
  (text.takeWhile Char.isDigit, text.dropWhile Char.isDigit)

/-- The digits in front of point and exponent: a single zero, or digits that do not start with
zero. -/
def readWhole (text : List Char) : Option (List Char × List Char) :=
  match text with
  | '0' :: rest => some (['0'], rest)
  | _ =>
    match splitDigits text with
    | ([], _) => none
    | split => some split

/-- A point and the digits behind it, if there is a point. -/
def readFraction (text : List Char) : Option (Bool × List Char) :=
  match text with
  | '.' :: rest =>
    match splitDigits rest with
    | ([], _) => none
    | (_, rest) => some (true, rest)
  | _ => some (false, text)

/-- An exponent, if there is one. -/
def readExponent (text : List Char) : Option (Bool × List Char) :=
  let unsigned (rest : List Char) : Option (Bool × List Char) :=
    match splitDigits rest with
    | ([], _) => none
    | (_, rest) => some (true, rest)
  match text with
  | c :: rest =>
    if c = 'e' ∨ c = 'E' then
      match rest with
      | '+' :: rest | '-' :: rest => unsigned rest
      | _ => unsigned rest
    else some (false, text)
  | [] => some (false, [])

/-- A number and what follows it. -/
def readNumber (text : List Char) : Option (Token × List Char) := do
  let (signed, text) := match text with
    | '-' :: rest => (true, rest)
    | _ => (false, text)
  let (whole, text) ← readWhole text
  let (fraction, text) ← readFraction text
  let (exponent, text) ← readExponent text
  let value := whole.foldl (fun n c => 10 * n + (c.toNat - '0'.toNat)) 0
  return (if signed || fraction || exponent then .number else .natural value, text)

/-! ### Tokens -/

/-- The token at the front of a text that does not start with a blank, and what follows it. -/
def readToken : List Char → Option (Token × List Char)
  | '\x7b' :: rest => some (.openObject, rest)
  | '\x7d' :: rest => some (.closeObject, rest)
  | '[' :: rest => some (.openArray, rest)
  | ']' :: rest => some (.closeArray, rest)
  | ':' :: rest => some (.colon, rest)
  | ',' :: rest => some (.comma, rest)
  | '"' :: rest => do
    let (units, rest) ← readUnits rest
    return (.string ((decodeUnits units).map String.ofList), rest)
  | 't' :: 'r' :: 'u' :: 'e' :: rest => some (.bool true, rest)
  | 'f' :: 'a' :: 'l' :: 's' :: 'e' :: rest => some (.bool false, rest)
  | 'n' :: 'u' :: 'l' :: 'l' :: rest => some (.null, rest)
  | text => readNumber text

/-- At most `bound` tokens, which must be the whole text. -/
def readTokens : Nat → List Char → Option (List Token)
  | 0, text => if text.all isBlank then some [] else none
  | bound + 1, text =>
    match text.dropWhile isBlank with
    | [] => some []
    | text => do
      let (token, rest) ← readToken text
      let tokens ← readTokens bound rest
      return token :: tokens

/-- The tokens of a text. No text has more tokens than characters. -/
def tokens? (text : String) : Option (List Token) :=
  readTokens text.length text.toList

/-! ### Skipping a value -/

/-- What a value that is being skipped lies in. -/
inductive Nesting where
  | object
  | array
deriving DecidableEq, Inhabited

mutual

/-- Skips the value at the front and what closes the nestings around it, innermost first. The texts
that skipped strings denote do not matter. -/
def skipValue : List Nesting → List Token → Option (List Token)
  | nesting, .string _ :: rest | nesting, .natural _ :: rest | nesting, .number :: rest
  | nesting, .bool _ :: rest | nesting, .null :: rest => skipRest nesting rest
  | nesting, .openArray :: .closeArray :: rest => skipRest nesting rest
  | nesting, .openArray :: rest => skipValue (.array :: nesting) rest
  | nesting, .openObject :: .closeObject :: rest => skipRest nesting rest
  | nesting, .openObject :: .string _ :: .colon :: rest => skipValue (.object :: nesting) rest
  | _, _ => none

/-- Skips what follows a value inside the given nestings. -/
def skipRest : List Nesting → List Token → Option (List Token)
  | [], rest => some rest
  | .array :: nesting, .closeArray :: rest => skipRest nesting rest
  | .array :: nesting, .comma :: rest => skipValue (.array :: nesting) rest
  | .object :: nesting, .closeObject :: rest => skipRest nesting rest
  | .object :: nesting, .comma :: .string _ :: .colon :: rest =>
    skipValue (.object :: nesting) rest
  | _, _ => none

end

end ScriptLowering.Json
