import Sable.Grammar.Expressions
import Sable.Grammar.Template
import Sable.Token.Layout

/-!
# Reading text literals

The expressions in a text literal are cut into tokens and read like any other, literals in them
included. Each lies in a shorter text than the literal around it. What goes wrong in one is
reported at the place of the whole literal.
-/

namespace Sable

/-- Reads the expression in a hole, `reader` reading the literals in it. -/
def readHole (reader : TextReader) (body : String) : Except SyntaxCause Expr :=
  if Text.allBlank body.toList then .error .emptyHole
  else
    match Token.tokenize body with
    | .error e => .error (.unreadableHole e)
    | .ok tokens =>
      let cursor := Cursor.ofTokens tokens
      match Parser.wholeExpression reader cursor.rest.length cursor with
      | .ok (e, _) => .ok e
      | .error e => .error (.brokenHole e.cause)

/-- Reads a text literal in which literals lie at most `depth` deep. -/
def readText : (depth : Nat) → TextReader
  | 0, _, span => .error ⟨.emptyHole, span⟩
  | depth + 1, text, span =>
    match Template.ofText (readHole (readText depth)) text with
    | .ok t => .ok (.text t.text t.names t.holes span)
    | .error cause => .error ⟨cause, span⟩

/-- Reads a text literal. Its length is more than the depth of the literals in it. -/
def readLiteral : TextReader := fun text span =>
  readText (text.length + 1) text span

end Sable
