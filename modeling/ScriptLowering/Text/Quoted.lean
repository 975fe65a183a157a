import ScriptLowering.Text.Invisible

/-!
# Quoted text

String constants are shown between double quotes. A quote and a backslash are escaped, the four
usual controls have short escapes, and every other character without a visible form is written as
its code point in hexadecimal, so that two different strings never look the same.
-/

namespace ScriptLowering.Text

/-- A code point in lower-case hexadecimal, without leading zeros, between braces. -/
def codePoint (c : Char) : List Char :=
  '\\' :: 'u' :: '\x7b' :: (Nat.toDigits 16 c.toNat ++ ['\x7d'])

/-- One character as it stands between quotes. A single quote needs no escape there. -/
def escape (c : Char) : List Char :=
  if c = '\x00' then ['\\', '0']
  else if c = '\t' then ['\\', 't']
  else if c = '\r' then ['\\', 'r']
  else if c = '\n' then ['\\', 'n']
  else if c = '"' ∨ c = '\\' then ['\\', c]
  else if isInvisible c then codePoint c
  else [c]

/-- A string between double quotes. -/
def quote (s : String) : String :=
  String.ofList ('"' :: (s.toList.flatMap escape ++ ['"']))

end ScriptLowering.Text
