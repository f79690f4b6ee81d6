import Sable.Span
import Sable.Token.Kind

/-!
# Tokens

A token is a piece of the source with its kind, its text and its span. A quoted text carries what
it stands for, every other token what was written.
-/

namespace Sable

structure Token where
  kind : Kind
  text : String
  span : Span
  deriving DecidableEq

namespace Token

/-- An identifier with the given spelling. Some words have a meaning only where the grammar asks
for them. -/
def isWord (t : Token) (word : String) : Bool :=
  t.kind == .identifier && t.text == word

/-- The token after the last one. -/
def endOfFile (span : Span) : Token :=
  ⟨.endOfFile, "EndOfFile", span⟩

def name (t : Token) : Name :=
  ⟨t.text, t.span⟩

/-- How a message quotes a token: its text, or its kind where there is none. -/
def shown (t : Token) : String :=
  if t.text.isEmpty then t.kind.describe else t.text

end Token

end Sable
