import TraitInference.Text.Unprintable

/-!
# TraitInference — quoted text

Text between double quotes in which every character can be seen: quotes and
backslashes are marked by a backslash, the common control characters have a
letter each, and any other character without a glyph of its own is written by
its number in hexadecimal.
-/

namespace TraitInference.Text

/-- How one character is written between quotes. -/
def escaped (c : Char) : List Char :=
  if c = '"' then ['\\', '"']
  else if c = '\\' then ['\\', '\\']
  else if c = '\x00' then ['\\', '0']
  else if c = '\t' then ['\\', 't']
  else if c = '\r' then ['\\', 'r']
  else if c = '\n' then ['\\', 'n']
  else if isUnprintable c then
    ['\\', 'u', '\x7b'] ++ Nat.toDigits 16 c.toNat ++ ['\x7d']
  else [c]

/-- A text between quotes. -/
def quoted (cs : List Char) : List Char :=
  '"' :: cs.flatMap escaped ++ ['"']

/-- A string between quotes. -/
def quote (s : String) : String :=
  String.ofList (quoted s.toList)

end TraitInference.Text
