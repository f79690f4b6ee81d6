/-!
# Kinds of tokens

The vocabulary of the language: its reserved words, its signs, the open classes of numbers, quoted
texts and identifiers, the layout tokens, and the trivia between them.
-/

namespace Sable

/-- The reserved words. -/
inductive Keyword where
  | letWord | mutWord | varWord | constWord | finalWord
  | fnWord | returnWord | ifWord | elseWord | forWord | whileWord | inWord | breakWord | skipWord
  | typeWord | structWord | contractWord | aliasWord | fulfillWord
  | andWord | orWord | notWord
  deriving DecidableEq

namespace Keyword

def text : Keyword → String
  | letWord => "let"
  | mutWord => "mut"
  | varWord => "var"
  | constWord => "const"
  | finalWord => "final"
  | fnWord => "fn"
  | returnWord => "return"
  | ifWord => "if"
  | elseWord => "else"
  | forWord => "for"
  | whileWord => "while"
  | inWord => "in"
  | breakWord => "break"
  | skipWord => "skip"
  | typeWord => "type"
  | structWord => "struct"
  | contractWord => "contract"
  | aliasWord => "alias"
  | fulfillWord => "fulfill"
  | andWord => "and"
  | orWord => "or"
  | notWord => "not"

/-- Every reserved word, in the order in which they are tried. -/
def all : List Keyword :=
  [letWord, mutWord, varWord, constWord, finalWord, fnWord, returnWord, ifWord, elseWord, forWord,
   whileWord, inWord, breakWord, skipWord, typeWord, structWord, contractWord, aliasWord,
   fulfillWord, andWord, orWord, notWord]

end Keyword

/-- The signs: operators, separators and brackets. -/
inductive Symbol where
  | arrow | power | equalsEquals | notEquals | lessEquals | greaterEquals | andAnd | orOr
  | plusEquals | minusEquals | starEquals | slashEquals
  | equals | plus | minus | star | slash | percent | less | greater | bang
  | pipe | question | comma | dot | colon | semicolon
  | openParen | closeParen | openBrace | closeBrace | openBracket | closeBracket
  deriving DecidableEq

namespace Symbol

def text : Symbol → String
  | arrow => "->"
  | power => "**"
  | equalsEquals => "=="
  | notEquals => "!="
  | lessEquals => "<="
  | greaterEquals => ">="
  | andAnd => "&&"
  | orOr => "||"
  | plusEquals => "+="
  | minusEquals => "-="
  | starEquals => "*="
  | slashEquals => "/="
  | equals => "="
  | plus => "+"
  | minus => "-"
  | star => "*"
  | slash => "/"
  | percent => "%"
  | less => "<"
  | greater => ">"
  | bang => "!"
  | pipe => "|"
  | question => "?"
  | comma => ","
  | dot => "."
  | colon => ":"
  | semicolon => ";"
  | openParen => "("
  | closeParen => ")"
  | openBrace => "\x7b"
  | closeBrace => "\x7d"
  | openBracket => "["
  | closeBracket => "]"

/-- Every sign, each before those it begins with. -/
def all : List Symbol :=
  [arrow, power, equalsEquals, notEquals, lessEquals, greaterEquals, andAnd, orOr, plusEquals,
   minusEquals, starEquals, slashEquals, equals, plus, minus, star, slash, percent, less, greater,
   bang, pipe, question, comma, dot, colon, semicolon, openParen, closeParen, openBrace, closeBrace,
   openBracket, closeBracket]

end Symbol

/-- What a token is. -/
inductive Kind where
  | number
  | text
  | identifier
  | keyword (word : Keyword)
  | symbol (sign : Symbol)
  | space
  | comment
  | newline
  | indent
  | dedent
  | endOfFile
  deriving DecidableEq

namespace Kind

/-- Tokens that separate others and never reach the grammar. -/
def isTrivia : Kind → Bool
  | space | comment | newline => true
  | _ => false

/-- How messages speak of a kind of token. -/
def describe : Kind → String
  | number => "number"
  | text => "string"
  | identifier => "identifier"
  | keyword word => word.text
  | symbol sign => sign.text
  | space => "whitespace"
  | comment => "comment"
  | newline => "end of line"
  | indent => "indent"
  | dedent => "dedent"
  | endOfFile => "end of file"

end Kind

end Sable
