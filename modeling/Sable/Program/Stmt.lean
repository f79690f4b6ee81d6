import Sable.Program.Expr

/-!
# Statements

Loops carry a number that tells them apart within a program, and a jump carries the number of the
loop it leaves or continues.
-/

namespace Sable

/-- Whether a binding may be given another value. -/
inductive Modifier where
  | mutable | final | constant
  deriving DecidableEq

namespace Modifier

def keyword : Modifier → String
  | mutable => "var"
  | final => "final"
  | constant => "const"

/-- A binding that cannot change has its value from the start. -/
def needsValue : Modifier → Bool
  | mutable => false
  | final | constant => true

end Modifier

structure VarDecl where
  modifier : Modifier
  name : Name
  type : Option TypeExpr
  value : Option Expr

structure Param where
  name : Name
  type : Option TypeExpr
  /-- Evaluated where the argument is null. -/
  fallback : Option Expr

/-- A function with statements of type `σ` as its body. -/
structure FunctionOf (σ : Type) where
  name : Name
  typeParams : List TypeParam
  /-- The name under which a method sees the object it is called on. -/
  receiver : Option Name
  params : List Param
  result : Option TypeExpr
  body : List σ
  span : Span

/-- The annotations in the head of a function. -/
def FunctionOf.annotations {σ : Type} (f : FunctionOf σ) : List TypeExpr :=
  TypeParam.bounds f.typeParams ++ f.params.filterMap (·.type) ++ f.result.toList

/-- A computed property with statements of type `σ` as its body. -/
structure GetterOf (σ : Type) where
  name : Name
  result : TypeExpr
  body : List σ

/-- The numbers a range loop runs through. -/
structure RangeExpr where
  start : Expr
  stop : Expr
  /-- The last number may be `stop` itself. -/
  inclusive : Bool
  step : Option Expr

inductive Stmt where
  | varDecl (decl : VarDecl)
  | varDecls (decls : List VarDecl)
  | function (decl : FunctionOf Stmt)
  | ret (value : Option Expr) (span : Span)
  /-- The conditions with their bodies in order, and the body where none holds. -/
  | ifElse (branches : List (Expr × List Stmt)) (otherwise : Option (List Stmt))
  | whileLoop (id : Nat) (condition : Expr) (body : List Stmt)
  | forLoop (id : Nat) (label : Option Name) (init : Option Stmt) (condition update : Option Expr)
      (body : List Stmt)
  | forIn (id : Nat) (label index : Option Name) (value : Name) (iterable : Expr)
      (body : List Stmt)
  | forRange (id : Nat) (label index : Option Name) (value : Name) (range : RangeExpr)
      (body : List Stmt)
  | leave (id : Nat) (label : Option Name) (span : Span)
  | skip (id : Nat) (label : Option Name) (span : Span)
  | typeDecl (name : Name) (params : List TypeParam) (definition : TypeExpr)
  | fulfill (contract target : Name) (methods : List (FunctionOf Stmt))
      (getters : List (GetterOf Stmt))
  | expr (value : Expr)

abbrev Function := FunctionOf Stmt

abbrev Getter := GetterOf Stmt

/-- A getter runs as a method without parameters that sees its object as `self`. -/
def GetterOf.toFunction (getter : Getter) : Function where
  name := getter.name
  typeParams := []
  receiver := some ⟨"self", getter.name.span⟩
  params := []
  result := some getter.result
  body := getter.body
  span := getter.name.span

/-- The name of a loop. -/
def loopName (id : Nat) : String :=
  s!"loop_{id}"

end Sable
