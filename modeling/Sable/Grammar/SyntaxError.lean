import Sable.Program.Stmt
import Sable.Token
import Sable.Token.LexError

/-!
# Tokens that are no program

Why a list of tokens, or a text literal among them, is not a program, and where.
-/

namespace Sable

/-- What is wrong. -/
inductive SyntaxCause where
  | unexpected (found : Token) (expected : String)
  | missingValue (modifier : Modifier) (name : String)
  | outsideLoop
  | unknownLabel (label : String)
  | aliasChain (name target : String)
  | invalidTarget (form : String)
  | invalidNumber (text : String)
  /-- An expression in a text that never ends; the rest of the text from there on. -/
  | openHole (rest : String)
  | emptyHole
  /-- An expression in a text that cannot be cut into tokens. -/
  | unreadableHole (error : LexError)
  /-- An expression in a text that is no expression. -/
  | brokenHole (cause : SyntaxCause)

namespace SyntaxCause

def message (file : String) : SyntaxCause → String
  | unexpected found expected => s!"Unexpected token '{found.shown}', expected {expected}"
  | missingValue modifier name =>
    s!"Must assign value to {modifier.keyword} declaration \"{name}\""
  | outsideLoop => "Unexpected break/continue statement outside of loop."
  | unknownLabel label => s!"Invalid label '{label}' for break/skip statement."
  | aliasChain name target => s!"Alias {name} cannot refer to another alias {target}"
  | invalidTarget form => s!"Invalid assignment target '{form}'"
  | invalidNumber text => s!"Invalid number '{text}'"
  | openHole rest => s!"Unterminated interpolation starting at '{rest}'"
  | emptyHole => "Empty interpolation '$\x7b\x7d' in string literal"
  | unreadableHole error => error.message file
  | brokenHole cause => cause.message file

def help : SyntaxCause → Option String
  | unexpected found _ =>
    match found.kind with
    | .endOfFile => some "the file ended before this construct was closed"
    | .dedent => some "the indented block ended early; check its indentation"
    | _ => none
  | outsideLoop => some "`break` and `skip` only work inside `for` and `while` bodies"
  | unknownLabel _ => some "name an enclosing loop declared with `for label <name>`"
  | _ => none

end SyntaxCause

structure SyntaxError where
  cause : SyntaxCause
  span : Span

/-- The full text of an error, with the place where it starts. -/
def SyntaxError.message (file : String) (e : SyntaxError) : String :=
  s!"{e.cause.message file} ({file}:{e.span.start.text})"

def SyntaxError.help (e : SyntaxError) : Option String :=
  e.cause.help

end Sable
