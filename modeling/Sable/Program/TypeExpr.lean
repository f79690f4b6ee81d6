import Sable.Span

/-!
# Type annotations

A `TypeExpr` is a type as it is written. What a program has where an annotation stands is a word for one
of the five primitive types, the name of a declared type, a generic struct with arguments, a union, an
array or a function. `struct`, `contract` and `aliased` are what a declaration gives a name to. The syntax
lets them stand elsewhere too, and it lets a `word` be any text; the grammar makes neither.
-/

namespace Sable

inductive Primitive where
  | number | text | bool | null | dynamic
  deriving DecidableEq

namespace Primitive

def name : Primitive → String
  | number => "number"
  | text => "string"
  | bool => "bool"
  | null => "null"
  | dynamic => "dynamic"

def all : List Primitive :=
  [number, text, bool, null, dynamic]

def ofName? (name : String) : Option Primitive :=
  all.find? (·.name == name)

end Primitive

/-- A field of a struct, with an annotation of type `τ`. -/
structure FieldOf (τ : Type) where
  name : Name
  type : τ
  optional : Bool

/-- What a contract asks for, with annotations of type `τ`. The receiver of a method is not among its
parameters. -/
inductive RequirementOf (τ : Type) where
  | method (name : Name) (params : List (Option τ)) (result : Option τ)
  | getter (name : Name) (result : τ)

def RequirementOf.annotations {τ : Type} : RequirementOf τ → List τ
  | method _ params result => params.filterMap id ++ result.toList
  | getter _ result => [result]

inductive TypeExpr where
  /-- The name of a primitive type, looked up when the annotation is evaluated. -/
  | word (text : String) (span : Span)
  /-- A declared type, looked up when the annotation is evaluated. -/
  | named (name : Name)
  | generic (name : Name) (args : List TypeExpr)
  | union (members : List TypeExpr) (span : Span)
  | array (element : TypeExpr) (span : Span)
  | function (params : List TypeExpr) (result : Option TypeExpr) (span : Span)
  | struct (fields : List (FieldOf TypeExpr)) (span : Span)
  | contract (members : List (RequirementOf TypeExpr)) (span : Span)
  | aliased (target : TypeExpr) (span : Span)

abbrev FieldDecl := FieldOf TypeExpr

abbrev Requirement := RequirementOf TypeExpr

namespace TypeExpr

/-- A primitive type by its own name. -/
abbrev primitive (type : Primitive) (span : Span) : TypeExpr :=
  word type.name span

/-- The place of an annotation. A generic type stands where its name does. -/
def span : TypeExpr → Span
  | word _ span | union _ span | array _ span | function _ _ span | struct _ span | contract _ span
  | aliased _ span => span
  | named name | generic name _ => name.span

/-- The types that need parentheses in front of brackets. -/
def isOpen : TypeExpr → Bool
  | union .. | function .. => true
  | _ => false

mutual

/-- An annotation as text. The members of a struct and of a contract are left out. -/
def text : TypeExpr → String
  | word text _ => text
  | named name => name.text
  | generic name args => name.text ++ "<" ++ ", ".intercalate (texts args) ++ ">"
  | union members _ => " | ".intercalate (texts members)
  | array element _ => if element.isOpen then "(" ++ text element ++ ")[]" else text element ++ "[]"
  | function params result _ =>
    "fn(" ++ ", ".intercalate (texts params) ++ ")" ++ resultText result
  | struct .. => "struct"
  | contract .. => "contract"
  | aliased target _ => "alias " ++ text target

def texts : List TypeExpr → List String
  | [] => []
  | type :: rest => text type :: texts rest

def resultText : Option TypeExpr → String
  | none => ""
  | some type => " -> " ++ text type

end

/-- The annotations in the definition of a type. -/
def annotations : TypeExpr → List TypeExpr
  | struct fields _ => fields.map (·.type)
  | contract members _ => members.flatMap (·.annotations)
  | aliased target _ => [target]
  | other => [other]

end TypeExpr

/-- A parameter of a generic declaration, with the bound on its arguments. -/
structure TypeParam where
  name : Name
  bound : Option TypeExpr

/-- The bounds on type parameters. -/
def TypeParam.bounds (params : List TypeParam) : List TypeExpr :=
  params.filterMap (·.bound)

end Sable
