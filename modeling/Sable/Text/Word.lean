import Sable.Text.Alphabetic
import Sable.Text.Numeric

/-!
# The characters of a word

A word is a letter or underscore followed by letters, digits and underscores, where letters and
digits are those of Unicode. ASCII is decided by
`Char.isAlpha` and `Char.isDigit`, the rest by the tables `alphabetic` and `numeric`.
-/

namespace Sable.Text

def isLetter (c : Char) : Bool :=
  if c.toNat < 128 then c.isAlpha else alphabetic.has c

def isNumeral (c : Char) : Bool :=
  if c.toNat < 128 then c.isDigit else numeric.has c

/-- A character that may open a word. -/
def isWordStart (c : Char) : Bool :=
  isLetter c || c == '_'

/-- A character that may continue a word. -/
def isWordChar (c : Char) : Bool :=
  isLetter c || isNumeral c || c == '_'

theorem isWordChar_of_isWordStart {c : Char} (h : isWordStart c = true) : isWordChar c = true := by
  unfold isWordStart at h
  unfold isWordChar
  simp only [Bool.or_eq_true] at h ⊢
  rcases h with h | h
  · exact .inl (.inl h)
  · exact .inr h

end Sable.Text
