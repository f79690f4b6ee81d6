import Sable.Text.Extender
import Sable.Text.Unprintable

/-!
# Quoted text

A text shown inside another value stands between double quotes. Quotes, backslashes and the common
controls get a short escape, and a character that would not show, or would merge with its
neighbour, is written as its code point.
-/

namespace Sable.Text

/-- The code point in lower-case hexadecimal between braces. -/
def codePoint (c : Char) : List Char :=
  ['\\', 'u', '\x7b'] ++ Nat.toDigits 16 c.toNat ++ ['\x7d']

/-- One character as it stands between the quotes. -/
def escape (c : Char) : List Char :=
  if c = '"' then ['\\', '"']
  else if c = '\\' then ['\\', '\\']
  else if c = '\n' then ['\\', 'n']
  else if c = '\r' then ['\\', 'r']
  else if c = '\t' then ['\\', 't']
  else if c = '\x00' then ['\\', '0']
  else if extending.has c || unprintable.has c then codePoint c
  else [c]

/-- The text between double quotes, every character escaped where it needs to be. -/
def quote (s : String) : String :=
  String.ofList ('"' :: s.toList.flatMap escape ++ ['"'])

end Sable.Text
