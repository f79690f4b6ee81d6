import Sable.Span

/-!
# Texts that are no tokens

The two ways in which a text fails before the grammar sees it: a character that starts no token, and
a line that returns to an indentation no enclosing block has.
-/

namespace Sable

inductive LexError where
  | unexpected (character : Char) (loc : Loc)
  | indentation (width : Nat) (loc : Loc)
  deriving DecidableEq

namespace LexError

def message (file : String) : LexError → String
  | unexpected character loc => s!"Unrecognized character '{character}' at {file}:{loc.text}"
  | indentation width loc =>
    s!"IndentationError: unindent to column {width} does not match any outer indentation level" ++
      s!" at {file}:{loc.text}"

/-- The bytes to point at: the character, or the blanks before the first token of the line. -/
def bytes : LexError → Nat × Nat
  | unexpected _ loc => (loc.offset, 1)
  | indentation width loc => (loc.offset - width, width)

def help : LexError → Option String
  | unexpected .. => none
  | indentation .. =>
    some "indented blocks open after a line ending in ':'; dedent back to an enclosing level"

end LexError

end Sable
