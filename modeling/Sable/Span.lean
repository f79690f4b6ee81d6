/-!
# Places in a source text

A location counts lines and columns from one, columns in characters, and keeps the byte offset
beside them. A span runs from one location to another.
-/

namespace Sable

/-- A point in the source. The end of the file has no column and carries `-1`. -/
structure Loc where
  line : Nat
  column : Int
  offset : Nat
  deriving DecidableEq, Inhabited

namespace Loc

/-- Where a text begins. -/
def start : Loc :=
  ⟨1, 1, 0⟩

/-- The location after one more character. -/
def next (l : Loc) (c : Char) : Loc :=
  if c = '\n' then ⟨l.line + 1, 1, l.offset + c.utf8Size⟩
  else ⟨l.line, l.column + 1, l.offset + c.utf8Size⟩

/-- The location after more text. -/
def after (l : Loc) (cs : List Char) : Loc :=
  cs.foldl next l

/-- Line and column with a colon between them. -/
def text (l : Loc) : String :=
  s!"{l.line}:{l.column}"

end Loc

/-- A stretch of the source, `stop` not included. -/
structure Span where
  start : Loc
  stop : Loc
  deriving DecidableEq, Inhabited

namespace Span

/-- The span that takes no place at all, before the first line. -/
def nowhere : Span :=
  ⟨⟨0, 0, 0⟩, ⟨0, 0, 0⟩⟩

/-- From the start of one span to the stop of another. -/
def upTo (a b : Span) : Span :=
  ⟨a.start, b.stop⟩

/-- Length in bytes. -/
def length (s : Span) : Nat :=
  s.stop.offset - s.start.offset

/-- The byte range as first offset and length. -/
def bytes (s : Span) : Nat × Nat :=
  (s.start.offset, s.length)

end Span

/-- A word of the program together with the place where it stands. -/
structure Name where
  text : String
  span : Span
  deriving DecidableEq, Inhabited

end Sable
