import Sable.Number.Decimal
import Sable.Program.TypeExpr

/-!
# Expressions

The syntax of expressions. A text literal is kept as its template: `$name` references stay in place, and
each expression in braces is replaced by a numbered placeholder. A `member` with a dot has a name behind
it (`field`) in every program, and one with brackets any expression (`index`). The syntax lets other
expressions stand behind a dot too; the grammar makes none of them.
-/

namespace Sable

inductive BinaryOp where
  | add | sub | mul | div | mod | pow | eq | notEq | lt | gt | ltEq | gtEq | and | or
  deriving DecidableEq

def BinaryOp.symbol : BinaryOp → String
  | add => "+"
  | sub => "-"
  | mul => "*"
  | div => "/"
  | mod => "%"
  | pow => "**"
  | eq => "=="
  | notEq => "!="
  | lt => "<"
  | gt => ">"
  | ltEq => "<="
  | gtEq => ">="
  | and => "&&"
  | or => "||"

inductive UnaryOp where
  | negate | not
  deriving DecidableEq

inductive Expr where
  | assign (target value : Expr)
  /-- A member of an object. The property is evaluated where it is computed, and a name otherwise. -/
  | member (object : Expr) (computed : Bool) (property : Expr) (span : Span)
  | call (callee : Expr) (args : List Expr) (span : Span)
  | binary (op : BinaryOp) (left right : Expr)
  | unary (op : UnaryOp) (operand : Expr) (span : Span)
  | var (name : Name)
  | number (value : Number.Decimal) (span : Span)
  /-- A template, the names it refers to, and the expressions of its placeholders. -/
  | text (template : String) (names : List String) (holes : List Expr) (span : Span)
  | array (elements : List Expr) (span : Span)
  /-- An object, or an instance of a struct; a property without a value takes that of the variable
  of its name. -/
  | object (struct : Option Name) (typeArgs : List TypeExpr) (properties : List (Name × Option Expr))
      (span : Span)

namespace Expr

/-- A property by name, `a.b`. -/
@[match_pattern] abbrev field (object : Expr) (name : Name) (span : Span) : Expr :=
  member object false (var name) span

/-- An element or property by value, `a[b]`. -/
@[match_pattern] abbrev index (object key : Expr) (span : Span) : Expr :=
  member object true key span

/-- Proofs go by the forms that expressions have in a program, with one case more for a member with
something other than a name behind its dot. -/
@[elab_as_elim, cases_eliminator]
theorem casesOnForm {motive : Expr → Prop} (e : Expr)
    (assign : ∀ target value, motive (assign target value))
    (field : ∀ object name span, motive (field object name span))
    (index : ∀ object key span, motive (index object key span))
    (stray : ∀ object property span, (∀ name, property ≠ var name) →
      motive (member object false property span))
    (call : ∀ callee args span, motive (call callee args span))
    (binary : ∀ op left right, motive (binary op left right))
    (unary : ∀ op operand span, motive (unary op operand span))
    (var : ∀ name, motive (var name))
    (number : ∀ value span, motive (number value span))
    (text : ∀ template names holes span, motive (text template names holes span))
    (array : ∀ elements span, motive (array elements span))
    (object : ∀ struct typeArgs properties span, motive (object struct typeArgs properties span)) :
    motive e :=
  match e with
  | .assign target value => assign target value
  | .field base name span => field base name span
  | .index base key span => index base key span
  | .call callee args span => call callee args span
  | .binary op left right => binary op left right
  | .unary op operand span => unary op operand span
  | .var name => var name
  | .number value span => number value span
  | .text template names holes span => text template names holes span
  | .array elements span => array elements span
  | .object struct typeArgs properties span => object struct typeArgs properties span
  | .member base false property span => by
    by_cases h : ∃ name, property = .var name
    · obtain ⟨name, rfl⟩ := h
      exact field base name span
    · exact stray base property span fun name hname => h ⟨name, hname⟩

def span : Expr → Span
  | assign target value => target.span.upTo value.span
  | binary _ left right => left.span.upTo right.span
  | var name => name.span
  | member _ _ _ span | call _ _ span | unary _ _ span | number _ span
  | text _ _ _ span | array _ span | object _ _ _ span => span

/-- The name of the form of an expression. -/
def form : Expr → String
  | assign .. => "AssignmentExpr"
  | member .. => "MemberExpr"
  | call .. => "CallExpr"
  | binary .. => "BinaryExpr"
  | unary .. => "UnaryExpr"
  | var .. => "Identifier"
  | number .. => "NumericLiteral"
  | text .. => "StringLiteral"
  | array .. => "ArrayLiteral"
  | object .. => "ObjectLiteral"

/-- The expressions that a value can be assigned to. -/
def isTarget : Expr → Bool
  | var _ | member .. => true
  | _ => false

end Expr

/-- What stands in a template for its `k`-th expression. -/
def placeholder (k : Nat) : String :=
  s!"#expr({k})"

end Sable
