import Sable.Grammar.Statements

/-!
# Programs

From source to program, with everything that can stop a source before it runs.
-/

namespace Sable

structure Program where
  file : String
  body : List Stmt

/-- Why a source is no program: it is not made of tokens, or the tokens do not fit together. -/
inductive SourceError where
  | lexical (error : LexError)
  | grammatical (error : SyntaxError)

namespace SourceError

def message (file : String) : SourceError → String
  | lexical error => error.message file
  | grammatical error => error.message file

def help : SourceError → Option String
  | lexical error => error.help
  | grammatical error => error.help

/-- The bytes of the source to point at. -/
def bytes : SourceError → Nat × Nat
  | lexical error => error.bytes
  | grammatical error => error.span.bytes

/-- What a report writes at these bytes. -/
def label : SourceError → String
  | lexical _ => "here"
  | grammatical _ => "while parsing this"

end SourceError

namespace Program

/-- Reads a program from its tokens. -/
def ofTokens (file : String) (tokens : List Token) : Except SyntaxError Program :=
  let cursor := Cursor.ofTokens tokens
  match Reader.program (cursor.rest.length + 1) ⟨cursor, 0, []⟩ with
  | .ok (body, _) => .ok ⟨file, body⟩
  | .error e => .error e

/-- Reads a program from its source. -/
def parse (file source : String) : Except SourceError Program :=
  match Token.tokenize source with
  | .error e => .error (.lexical e)
  | .ok tokens => (ofTokens file tokens).mapError .grammatical

end Program

/-- Reads a single expression from its tokens. -/
def Expr.ofTokens (tokens : List Token) : Except SyntaxError Expr :=
  let cursor := Cursor.ofTokens tokens
  match Parser.wholeExpression readLiteral cursor.rest.length cursor with
  | .ok (e, _) => .ok e
  | .error e => .error e

/-- Reads a single expression from its source. -/
def Expr.parse (source : String) : Except SourceError Expr :=
  match Token.tokenize source with
  | .error e => .error (.lexical e)
  | .ok tokens => (Expr.ofTokens tokens).mapError .grammatical

end Sable
