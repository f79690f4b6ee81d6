import Sable.Grammar.SyntaxError

/-!
# Reading tokens

A cursor stands in front of the tokens still to be read and remembers the place of the one read
last. It never moves past the end of the file. A rule of the grammar is a parser: it takes a cursor
and gives what it has read with the cursor after it, or an error.
-/

namespace Sable

structure Cursor where
  last : Span
  rest : List Token

namespace Cursor

/-- In front of a list of tokens. The end of the file is added where it is missing. -/
def ofTokens (tokens : List Token) : Cursor :=
  let rest := match tokens.getLast? with
    | none => [Token.endOfFile .nowhere]
    | some t => if t.kind = .endOfFile then tokens else tokens ++ [Token.endOfFile t.span]
  ⟨(rest.headD (.endOfFile .nowhere)).span, rest⟩

/-- The token in front of the cursor. -/
def here (c : Cursor) : Token :=
  c.rest.headD (.endOfFile c.last)

/-- The kind of a token further on, or of the last one. -/
def kindAt (c : Cursor) (ahead : Nat) : Kind :=
  ((c.rest[ahead]?.orElse fun _ => c.rest.getLast?).map (·.kind)).getD .endOfFile

/-- The cursor after the token in front of it. -/
def advance (c : Cursor) : Cursor :=
  if c.here.kind = .endOfFile then c else ⟨c.here.span, c.rest.tail⟩

/-- The next token begins on the line where the last one ended. -/
def onSameLine (c : Cursor) : Bool :=
  c.last.stop.line == c.here.span.start.line

end Cursor

abbrev Parser := StateT Cursor (Except SyntaxError)

namespace Parser

/-- The token in front of the cursor, which stays. -/
def peek : Parser Token :=
  return (← get).here

def kind : Parser Kind :=
  return (← get).here.kind

def kindAt (ahead : Nat) : Parser Kind :=
  return (← get).kindAt ahead

/-- The token in front of the cursor moves behind it. -/
def next : Parser Token := do
  let t := (← get).here
  modify Cursor.advance
  return t

/-- The place of the token read last. -/
def lastSpan : Parser Span :=
  return (← get).last

def onSameLine : Parser Bool :=
  return (← get).onSameLine

def fail {α : Type} (cause : SyntaxCause) (span : Span) : Parser α :=
  throw ⟨cause, span⟩

/-- The token in front of the cursor is not what the grammar asks for. -/
def unexpected {α : Type} (expected : String) : Parser α := do
  let t ← peek
  fail (.unexpected t expected) t.span

/-- Reads a token of the given kind if it comes next. -/
def accept (kind : Kind) : Parser Bool := do
  if (← Parser.kind) = kind then
    let _ ← next
    return true
  else return false

def expect (kind : Kind) : Parser Token := do
  if (← Parser.kind) = kind then next
  else unexpected s!"'{kind.describe}'"

def identifier (what : String) : Parser Name := do
  if (← Parser.kind) = .identifier then return (← next).name
  else unexpected what

/-- An identifier with the given spelling comes next. -/
def atWord (word : String) : Parser Bool :=
  return (← get).here.isWord word

/-- Reads `rule` behind a token of the given kind, if that comes next. -/
def after {α : Type} (kind : Kind) (rule : Parser α) : Parser (Option α) := do
  if ← accept kind then return some (← rule)
  else return none

/-- Items up to a closing token, which is not read. A comma stands between two of them and may
follow the last. At most `budget` items are read. -/
def listUntil {α : Type} (close : Kind) (item : Parser α) : (budget : Nat) → Parser (List α)
  | 0 => return []
  | budget + 1 => do
    if (← kind) = close then return []
    let first ← item
    if ← accept (.symbol .comma) then return first :: (← listUntil close item budget)
    else return [first]

/-- One item or more with a comma between any two. -/
def commaList {α : Type} (item : Parser α) : (budget : Nat) → Parser (List α)
  | 0 => return []
  | budget + 1 => do
    let first ← item
    if ← accept (.symbol .comma) then return first :: (← commaList item budget)
    else return [first]

end Parser

end Sable
