import Sable.Token.Scan

/-!
# Indentation

A line that ends in a colon may open a block by being followed by a more deeply indented line. The
block closes where a line returns to an earlier depth. A line that is deeper without a
colon before it opens none; if it opens a block itself, its depth is kept as a silent `Level`, which the
text after the block may return to. Blank lines and lines with nothing but a comment are passed over.
-/

namespace Sable

namespace Layout

/-- A depth that text may return to. A silent one opened no block and closes none. -/
structure Level where
  width : Nat
  silent : Bool
  deriving DecidableEq

/-- The columns taken by blanks, a tab for four. -/
def width (text : String) : Nat :=
  text.toList.foldl (fun columns c => columns + if c == '\t' then 4 else 1) 0

/-- The width of the innermost level, zero outside all of them. -/
def top : List Level → Nat
  | [] => 0
  | level :: _ => level.width

/-- A layout token has a place and no text. -/
def marker (kind : Kind) (span : Span) : Token :=
  ⟨kind, "", span⟩

/-- The tokens that close levels, innermost first. -/
def closing (levels : List Level) (span : Span) : List Token :=
  (levels.filter (!·.silent)).map fun _ => marker .dedent span

/-- What the first token of a line, at the given width and place, does to the levels, innermost
first, and which layout tokens come before it. `opener` is the width of the line before, if that
line ended in a colon. -/
def enter (levels : List Level) (width : Nat) (opener : Option Nat) (span : Span) :
    Except LexError (List Token × List Level) :=
  if top levels < width then
    match opener with
    | none => .ok ([], levels)
    | some outer =>
      let below := if top levels < outer ∧ outer < width then ⟨outer, true⟩ :: levels else levels
      .ok ([marker .indent span], ⟨width, false⟩ :: below)
  else
    let kept := levels.dropWhile (width < ·.width)
    if top kept = width then .ok (closing (levels.takeWhile (width < ·.width)) span, kept)
    else .error (.indentation width span.start)

/-- What is known at a point between two tokens. -/
structure State where
  levels : List Level := []
  /-- No token of the line has been seen. -/
  fresh : Bool := true
  /-- The width of the last line with a token on it, if it ended in a colon. -/
  opener : Option Nat := none
  /-- The width of the current line. -/
  lineWidth : Nat := 0
  /-- The last token of the line that is no trivia. -/
  last : Option Kind := none

/-- Passes a token on: the tokens that leave and the state after them. -/
def State.pass (s : State) (t : Token) : List Token × State :=
  match t.kind with
  | .newline =>
    let opener := match s.last with
      | none => s.opener
      | some kind => if kind = .symbol .colon then some s.lineWidth else none
    ([t], { s with fresh := true, opener := opener, last := none })
  | .endOfFile => (closing s.levels t.span ++ [t], { s with fresh := false, levels := [] })
  | .space | .comment => ([t], { s with fresh := false })
  | kind => ([t], { s with fresh := false, last := some kind })

/-- The first token that counts for the depth of a line whose next tokens are given: the one after
the blanks. There is none on a line without text. -/
def lineHead : List Token → Option Token
  | [] => none
  | t :: rest =>
    let first := if t.kind = .space then rest.head? else some t
    first.filter fun t => !(t.kind == .newline || t.kind == .comment || t.kind == .endOfFile)

/-- The width of the blanks at the head. -/
def leading : List Token → Nat
  | t :: _ => if t.kind = .space then width t.text else 0
  | [] => 0

/-- Adds the layout tokens to a list of tokens. -/
def mark (s : State) : List Token → Except LexError (List Token)
  | [] => .ok []
  | t :: rest =>
    match if s.fresh then lineHead (t :: rest) else none with
    | none =>
      let (out, s) := s.pass t
      (mark s rest).map (out ++ ·)
    | some first =>
      let columns := leading (t :: rest)
      match enter s.levels columns s.opener first.span with
      | .error e => .error e
      | .ok (markers, levels) =>
        let s := { s with levels, lineWidth := columns, opener := none }
        if t.kind = .space then
          (mark { s with fresh := false } rest).map (t :: markers ++ ·)
        else
          let (out, s) := s.pass t
          (mark s rest).map (markers ++ out ++ ·)

/-- Removes the colons that introduce an indented block. -/
def dropOpeners : List Token → List Token
  | [] => []
  | t :: rest =>
    if t.kind = .symbol .colon ∧ rest.head?.map (·.kind) = some .indent then dropOpeners rest
    else t :: dropOpeners rest

/-- What the grammar sees: no trivia, and no colon before a block. -/
def tidy (tokens : List Token) : List Token :=
  dropOpeners (tokens.filter (!·.kind.isTrivia))

end Layout

/-- From source to the tokens of the grammar, with the kinds tried in the order given. -/
def Token.tokenizeWith (kinds : List Kind) (source : String) : Except LexError (List Token) :=
  match Token.scan kinds source with
  | .error e => .error e
  | .ok tokens => (Layout.mark {} tokens).map Layout.tidy

/-- From source to the tokens of the grammar. -/
def Token.tokenize (source : String) : Except LexError (List Token) :=
  Token.tokenizeWith Kind.written source

end Sable
