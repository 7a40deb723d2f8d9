import TreeEvolution.Text.Unprinted

/-!
# Quoted text

`quoted` writes a string between double quotes so that it can be told from its surroundings.  The
quote and the backslash are escaped by a backslash, four control characters have a letter of their
own, and every other character without a shape is written by its code point in braces.
-/

namespace TreeEvolution.Text

/-- The hexadecimal digits of a number, in lower case and without leading zeros. -/
def hexadecimal (n : Nat) : String :=
  String.ofList (Nat.toDigits 16 n)

/-- The text that stands for one character between quotes. -/
def quotedChar (c : Char) : String :=
  if c = '"' then "\\\""
  else if c = '\\' then "\\\\"
  else if c = '\n' then "\\n"
  else if c = '\r' then "\\r"
  else if c = '\t' then "\\t"
  else if c = '\x00' then "\\0"
  else if isUnprinted c then "\\u\x7b" ++ hexadecimal c.toNat ++ "\x7d"
  else String.singleton c

/-- A string between double quotes. -/
def quoted (s : String) : String :=
  "\"" ++ String.join (s.toList.map quotedChar) ++ "\""

end TreeEvolution.Text
