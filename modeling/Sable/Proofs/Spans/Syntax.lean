import Sable.Proofs.Jumps.Escapes

/-!
# Expressions in a program

`Expr.parts` and `Stmt.exprs` are the expressions directly inside an expression and a statement,
`Expr.annotations` and `Stmt.annotations` the annotations, and `Expr.callSite?` is the place that a call
reports.
-/

namespace Sable

namespace Expr

/-- The expressions directly inside one. -/
def parts : Expr → List Expr
  | assign target value => [target, value]
  | field base _ _ => [base]
  | member base _ property _ => [base, property]
  | call callee args _ => callee :: args
  | binary _ left right => [left, right]
  | unary _ operand _ => [operand]
  | var _ | number _ _ => []
  | text _ _ holes _ => holes
  | array elements _ => elements
  | object _ _ properties _ => properties.filterMap (·.2)

theorem object_mem_parts (base : Expr) (computed : Bool) (property : Expr) (span : Span) :
    base ∈ (member base computed property span).parts := by
  unfold parts
  split <;> simp_all

/-- The annotations directly inside an expression. -/
def annotations : Expr → List TypeExpr
  | object _ typeArgs _ _ => typeArgs
  | _ => []

/-- The place that a call reports which the expression makes itself: a call, or the access to a
member that a getter answers. -/
def callSite? : Expr → Option Span
  | call _ _ span | member _ _ _ span => some span
  | _ => none

end Expr

namespace Stmt

/-- The expressions directly inside a statement. -/
def exprs : Stmt → List Expr
  | varDecl decl => decl.value.toList
  | varDecls decls => decls.filterMap (·.value)
  | ret value _ => value.toList
  | ifElse branches _ => branches.map (·.1)
  | whileLoop _ condition _ => [condition]
  | forLoop _ _ _ condition update _ => condition.toList ++ update.toList
  | forIn _ _ _ _ iterable _ => [iterable]
  | forRange _ _ _ _ range _ => range.start :: range.stop :: range.step.toList
  | expr value => [value]
  | _ => []

/-- The annotations of a statement that are in the head of no function. -/
def ownAnnotations : Stmt → List TypeExpr
  | varDecl decl => decl.type.toList
  | varDecls decls => decls.filterMap (·.type)
  | typeDecl _ params definition => TypeParam.bounds params ++ definition.annotations
  | _ => []

/-- The annotations directly inside a statement. -/
def annotations (s : Stmt) : List TypeExpr :=
  s.ownAnnotations ++ s.functions.flatMap (·.annotations)

end Stmt

end Sable
