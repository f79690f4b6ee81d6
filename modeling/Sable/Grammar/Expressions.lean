import Sable.Grammar.Types

/-!
# The grammar of expressions

From loose to tight: assignment, the tiers of binary operators, powers, signs, and the calls and
members behind a primary expression. A rule is given the rule for the expressions inside it,
`nested`, which is told whether a brace may open an object there. A budget no smaller than the
number of tokens left bounds every repetition and how deep expressions lie inside one another.
-/

namespace Sable

/-- Reads the literal in a text token. -/
abbrev TextReader := String → Span → Except SyntaxError Expr

/-- The tiers of binary operators that group to the left, loosest first. -/
def BinaryOp.tiers : List (List (Kind × BinaryOp)) :=
  [[(.symbol .orOr, .or), (.keyword .orWord, .or)],
   [(.symbol .andAnd, .and), (.keyword .andWord, .and)],
   [(.symbol .equalsEquals, .eq), (.symbol .notEquals, .notEq)],
   [(.symbol .less, .lt), (.symbol .greater, .gt), (.symbol .lessEquals, .ltEq),
    (.symbol .greaterEquals, .gtEq)],
   [(.symbol .plus, .add), (.symbol .minus, .sub)],
   [(.symbol .star, .mul), (.symbol .slash, .div), (.symbol .percent, .mod)]]

/-- The sign that a token stands for in front of an operand. -/
def UnaryOp.ofKind? : Kind → Option UnaryOp
  | .symbol .minus => some .negate
  | .symbol .bang | .keyword .notWord => some .not
  | _ => none

/-- The assignments, each with the operator that it applies to the old value first. -/
def assignmentOf? : Kind → Option (Option BinaryOp)
  | .symbol .equals => some none
  | .symbol .plusEquals => some (some .add)
  | .symbol .minusEquals => some (some .sub)
  | .symbol .starEquals => some (some .mul)
  | .symbol .slashEquals => some (some .div)
  | _ => none

namespace Parser

/-- Operators of one tier with an operand behind each, grouped to the left of `left`. -/
def tierTail (operand : Parser Expr) (tier : List (Kind × BinaryOp)) :
    (budget : Nat) → Expr → Parser Expr
  | 0, left => return left
  | budget + 1, left => do
    match tier.lookup (← kind) with
    | none => return left
    | some op =>
      let _ ← next
      let right ← operand
      tierTail operand tier budget (.binary op left right)

def tier (budget : Nat) (operators : List (Kind × BinaryOp)) (operand : Parser Expr) :
    Parser Expr := do
  tierTail operand operators budget (← operand)

/-- Operands with a power sign between any two, grouped to the right. -/
def powers (operand : Parser Expr) : (budget : Nat) → Parser Expr
  | 0 => operand
  | budget + 1 => do
    let base ← operand
    if ← accept (.symbol .power) then return .binary .pow base (← powers operand budget)
    else return base

/-- Signs in front of an operand. -/
def signed (operand : Parser Expr) : (budget : Nat) → Parser Expr
  | 0 => operand
  | budget + 1 => do
    match UnaryOp.ofKind? (← kind) with
    | none => operand
    | some op =>
      let start := (← next).span
      let inner ← signed operand budget
      return .unary op inner (start.upTo inner.span)

/-- Members and calls behind an expression. A bracket or parenthesis on a new line starts something
else. -/
def members (nested : Bool → Parser Expr) : (budget : Nat) → Expr → Parser Expr
  | 0, e => return e
  | budget + 1, e => do
    if ← accept (.symbol .dot) then
      let name ← identifier "a property name"
      members nested budget (.field e name (e.span.upTo name.span))
    else if (← kind) = .symbol .openBracket ∧ (← onSameLine) then
      let _ ← next
      let key ← nested true
      let close ← expect (.symbol .closeBracket)
      members nested budget (.index e key (e.span.upTo close.span))
    else if (← kind) = .symbol .openParen ∧ (← onSameLine) then
      let _ ← next
      let args ← listUntil (.symbol .closeParen) (nested true) budget
      let close ← expect (.symbol .closeParen)
      members nested budget (.call e args (e.span.upTo close.span))
    else return e

/-- The properties of an object up to its closing brace, with commas between them or nothing but
the next name. -/
def properties (nested : Bool → Parser Expr) :
    (budget : Nat) → Parser (List (Name × Option Expr))
  | 0 => return []
  | budget + 1 => do
    if (← kind) = .symbol .closeBrace then return []
    let name ← identifier "a property name"
    let value ← after (.symbol .colon) (nested true)
    let comma ← accept (.symbol .comma)
    if comma ∨ (← kind) = .identifier then
      return (name, value) :: (← properties nested budget)
    else return [(name, value)]

/-- An object in braces, which starts at `start`. -/
def objectBody (nested : Bool → Parser Expr) (budget : Nat) (struct : Option Name)
    (typeArgs : List TypeExpr) (start : Span) : Parser Expr := do
  let _ ← expect (.symbol .openBrace)
  let props ← properties nested budget
  let close ← expect (.symbol .closeBrace)
  return .object struct typeArgs props (start.upTo close.span)

/-- The name and type arguments in front of an instance of a generic struct, up to its brace. -/
def genericHead (budget : Nat) : Parser (Name × List TypeExpr) := do
  let name ← identifier "a struct name"
  let _ ← next
  let args ← commaList (typeExpr budget) budget
  let _ ← expect (.symbol .greater)
  if (← kind) = .symbol .openBrace then return (name, args)
  else unexpected "an object"

/-- Reads `genericHead` if it is there. Otherwise the bracket behind the name compares, and nothing
is read. -/
def genericHead? (budget : Nat) : Parser (Option (Name × List TypeExpr)) := fun c =>
  match genericHead budget c with
  | .ok (head, c) => .ok (some head, c)
  | .error _ => .ok (none, c)

/-- A name: a variable, or a struct with its properties where braces may open an object. -/
def named (nested : Bool → Parser Expr) (budget : Nat) (objects : Bool) : Parser Expr := do
  let second ← kindAt 1
  let head ←
    if objects ∧ second = .symbol .less then genericHead? budget else pure none
  match head with
  | some (name, args) => objectBody nested budget (some name) args name.span
  | none =>
    let name ← identifier "a struct name"
    if objects ∧ second = .symbol .openBrace then objectBody nested budget (some name) [] name.span
    else return .var name

/-- The operands of all operators. -/
def primary (reader : TextReader) (nested : Bool → Parser Expr) (budget : Nat) (objects : Bool) :
    Parser Expr := do
  let t ← peek
  match t.kind with
  | .number =>
    let _ ← next
    match Number.Decimal.ofText? t.text with
    | some value => return .number value t.span
    | none => fail (.invalidNumber t.text) t.span
  | .text =>
    let _ ← next
    match reader t.text t.span with
    | .ok e => return e
    | .error e => throw e
  | .identifier => named nested budget objects
  | .symbol .openBrace =>
    if objects then objectBody nested budget none [] t.span else unexpected "an expression"
  | .symbol .openBracket =>
    let _ ← next
    let elements ← listUntil (.symbol .closeBracket) (nested true) budget
    let close ← expect (.symbol .closeBracket)
    return .array elements (t.span.upTo close.span)
  | .symbol .openParen =>
    let _ ← next
    let inner ← nested true
    let _ ← expect (.symbol .closeParen)
    return inner
  | _ => unexpected "an expression"

/-- A primary expression with its members, its signs and its powers. -/
def operand (reader : TextReader) (nested : Bool → Parser Expr) (budget : Nat) (objects : Bool) :
    Parser Expr :=
  powers (signed (do members nested budget (← primary reader nested budget objects)) budget) budget

/-- Everything tighter than assignment. -/
def operation (reader : TextReader) (nested : Bool → Parser Expr) (budget : Nat) (objects : Bool) :
    Parser Expr :=
  BinaryOp.tiers.foldr (tier budget) (operand reader nested budget objects)

/-- A whole expression, given the rule for those inside it. An assignment with an operator reads the
target as its first operand. -/
def assignment (reader : TextReader) (nested : Bool → Parser Expr) (budget : Nat)
    (objects : Bool) : Parser Expr := do
  let left ← operation reader nested budget objects
  match assignmentOf? (← kind) with
  | none => return left
  | some compound =>
    let sign ← next
    if left.isTarget then
      let value ← nested objects
      match compound with
      | none => return .assign left value
      | some op => return .assign left (.binary op left value)
    else fail (.invalidTarget left.form) sign.span

/-- An expression. `objects` tells whether a brace may open an object: it may not in the head of a
condition or loop, where it opens the body. -/
def expression (reader : TextReader) : (budget : Nat) → (objects : Bool) → Parser Expr
  | 0, _ => unexpected "an expression"
  | budget + 1, objects => assignment reader (expression reader budget) budget objects

/-- An expression and nothing behind it. -/
def wholeExpression (reader : TextReader) (budget : Nat) : Parser Expr := do
  let e ← expression reader budget true
  if (← kind) = .endOfFile then return e
  else unexpected "end of expression"

end Parser

end Sable
