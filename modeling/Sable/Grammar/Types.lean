import Sable.Grammar.Cursor

/-!
# The grammar of type annotations

A union of types with brackets behind them, where a type with brackets behind it is an array. Every
rule takes the rule for a whole annotation as an argument, and a budget no smaller than the number
of tokens left bounds how deep annotations lie inside one another.
-/

namespace Sable

namespace Parser

/-- The rest of a union, each member behind a bar. -/
def unionTail (member : Parser TypeExpr) : (budget : Nat) → Parser (List TypeExpr)
  | 0 => return []
  | budget + 1 => do
    if ← accept (.symbol .pipe) then
      let type ← member
      return type :: (← unionTail member budget)
    else return []

/-- Pairs of brackets behind a type. -/
def brackets : (budget : Nat) → TypeExpr → Parser TypeExpr
  | 0, type => return type
  | budget + 1, type => do
    if (← kind) = .symbol .openBracket ∧ (← kindAt 1) = .symbol .closeBracket then
      let _ ← next
      let close ← next
      brackets budget (.array type (type.span.upTo close.span))
    else return type

/-- A name, a generic type, a function type, or a type in parentheses. -/
def simpleType (inner : Parser TypeExpr) (budget : Nat) : Parser TypeExpr := do
  match ← kind with
  | .identifier =>
    let name ← identifier "a type"
    match Primitive.ofName? name.text with
    | some type => return .primitive type name.span
    | none =>
      if ← accept (.symbol .less) then
        let args ← commaList inner budget
        let _ ← expect (.symbol .greater)
        return .generic name args
      else return .named name
  | .keyword .fnWord =>
    let start := (← next).span
    let _ ← expect (.symbol .openParen)
    let params ← listUntil (.symbol .closeParen) inner budget
    let _ ← expect (.symbol .closeParen)
    let result ← after (.symbol .arrow) inner
    return .function params result (start.upTo (← lastSpan))
  | .symbol .openParen =>
    let _ ← next
    let type ← inner
    let _ ← expect (.symbol .closeParen)
    return type
  | _ => unexpected "a type"

/-- A type with its brackets. -/
def bracketType (inner : Parser TypeExpr) (budget : Nat) : Parser TypeExpr := do
  brackets budget (← simpleType inner budget)

/-- A whole annotation, given the rule for those inside it. -/
def unionType (inner : Parser TypeExpr) (budget : Nat) : Parser TypeExpr := do
  let first ← bracketType inner budget
  if (← kind) = .symbol .pipe then
    let others ← unionTail (bracketType inner budget) budget
    return .union (first :: others) (first.span.upTo (← lastSpan))
  else return first

/-- A type annotation. -/
def typeExpr : (budget : Nat) → Parser TypeExpr
  | 0 => unexpected "a type"
  | budget + 1 => unionType (typeExpr budget) budget

end Parser

end Sable
