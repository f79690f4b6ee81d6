import Sable.Text.Word
import Sable.Token.Kind

/-!
# The shape of each kind of token

For every kind, how many characters at the head of a text belong to a token of that kind. Layout
tokens and the end of the file are not written and take none.
-/

namespace Sable

namespace Lexeme

/-- A line ends in a newline, or in a carriage return and a newline. -/
def newline : List Char → Nat
  | '\r' :: '\n' :: _ => 2
  | '\n' :: _ => 1
  | _ => 0

def isSpace (c : Char) : Bool :=
  c == ' ' || c == '\t'

def space (cs : List Char) : Nat :=
  (cs.takeWhile isSpace).length

def isLineEnd (c : Char) : Bool :=
  c == '\n' || c == '\r'

/-- Two slashes and the rest of the line. -/
def comment : List Char → Nat
  | '/' :: '/' :: rest => 2 + (rest.takeWhile (!isLineEnd ·)).length
  | _ => 0

def digits (cs : List Char) : Nat :=
  (cs.takeWhile Char.isDigit).length

/-- A point and digits after it, or nothing. -/
def fraction : List Char → Nat
  | '.' :: rest => if digits rest = 0 then 0 else 1 + digits rest
  | _ => 0

/-- Digits, with or without a fraction. -/
def number (cs : List Char) : Nat :=
  if digits cs = 0 then 0 else digits cs + fraction (cs.drop (digits cs))

/-- Characters up to and including the closing quote, where a backslash takes the next character
with it. There are none if the quote is missing. -/
def quoteEnd : List Char → Option Nat
  | [] => none
  | '"' :: _ => some 1
  | '\\' :: _ :: rest => (quoteEnd rest).map (2 + ·)
  | '\\' :: [] => none
  | _ :: rest => (quoteEnd rest).map (1 + ·)

/-- A text between double quotes. -/
def text : List Char → Nat
  | '"' :: rest => match quoteEnd rest with
    | some n => 1 + n
    | none => 0
  | _ => 0

/-- A fixed spelling. -/
def exactly (word cs : List Char) : Nat :=
  if word.isPrefixOf cs then word.length else 0

/-- A reserved word that is not the beginning of a longer one. -/
def keyword (word cs : List Char) : Nat :=
  match cs.drop word.length with
  | c :: _ => if Text.isWordChar c then 0 else exactly word cs
  | [] => exactly word cs

def identifier : List Char → Nat
  | c :: rest => if Text.isWordStart c then 1 + (rest.takeWhile Text.isWordChar).length else 0
  | [] => 0

end Lexeme

/-- The number of characters at the head of the text that make a token of this kind. -/
def Kind.reach : Kind → List Char → Nat
  | .number => Lexeme.number
  | .text => Lexeme.text
  | .identifier => Lexeme.identifier
  | .keyword word => Lexeme.keyword word.text.toList
  | .symbol sign => Lexeme.exactly sign.text.toList
  | .space => Lexeme.space
  | .comment => Lexeme.comment
  | .newline => Lexeme.newline
  | .indent | .dedent | .endOfFile => fun _ => 0

end Sable
