import Sable.Number.Format
import Sable.Program
import Sable.Text.Quoted

/-!
# Programs as trees

The structure of a program written out in full: every node by name with its parts below it, one to a
line and four spaces further in.
-/

namespace Sable

inductive Tree where
  | leaf (text : String)
  /-- A node with named parts. -/
  | record (name : String) (parts : List (String × Tree))
  /-- A node with parts in order; without a name it only groups them. -/
  | tuple (name : String) (parts : List Tree)
  | list (items : List Tree)

namespace Tree

/-- Further in by one level. -/
def inset (indent : String) : String :=
  indent ++ "    "

mutual

/-- A tree whose first line continues a line indented as given. -/
def render (indent : String) : Tree → String
  | leaf text => text
  | record name parts => name ++ " \x7b\n" ++ renderParts (inset indent) parts ++ indent ++ "\x7d"
  | tuple name parts => name ++ "(\n" ++ renderItems (inset indent) parts ++ indent ++ ")"
  | list [] => "[]"
  | list (item :: items) => "[\n" ++ renderItems (inset indent) (item :: items) ++ indent ++ "]"

def renderParts (indent : String) : List (String × Tree) → String
  | [] => ""
  | (name, tree) :: rest =>
    indent ++ name ++ ": " ++ render indent tree ++ ",\n" ++ renderParts indent rest

def renderItems (indent : String) : List Tree → String
  | [] => ""
  | tree :: rest => indent ++ render indent tree ++ ",\n" ++ renderItems indent rest

end

def ofBool (b : Bool) : Tree :=
  leaf (if b then "true" else "false")

def ofText (s : String) : Tree :=
  leaf (Text.quote s)

def none : Tree :=
  leaf "None"

def some (t : Tree) : Tree :=
  tuple "Some" [t]

/-- A part that may be missing. -/
def ofOption {α : Type} (f : α → Tree) : Option α → Tree
  | .none => none
  | .some a => some (f a)

def ofLoc (l : Loc) : Tree :=
  record "Location"
    [("line", leaf (toString l.line)), ("column", leaf (toString l.column)),
     ("offset", leaf (toString l.offset))]

def ofSpan (s : Span) : Tree :=
  record "Position" [("start", ofLoc s.start), ("end", ofLoc s.stop)]

/-- Something that stands at a place by itself. -/
def placed (value : Tree) (span : Span) : Tree :=
  record "LeafNode" [("value", value), ("position", ofSpan span)]

def ofName (n : Name) : Tree :=
  placed (ofText n.text) n.span

/-- A node that is also the name of its form. -/
def node (form name : String) (parts : List (String × Tree)) : Tree :=
  tuple form [record name parts]

mutual

def ofTypeExpr : TypeExpr → Tree
  | .word text span => tuple "Primitive" [placed (ofText text) span]
  | .named name => tuple "Named" [ofName name]
  | .generic name args =>
    node "Generic" "GenericType" [("name", ofName name), ("args", list (ofTypeExprs args))]
  | .union members span =>
    node "Union" "UnionType" [("members", list (ofTypeExprs members)), ("position", ofSpan span)]
  | .array element span =>
    node "Array" "ArrayType" [("element", ofTypeExpr element), ("position", ofSpan span)]
  | .function params result span =>
    node "Function" "FunctionType"
      [("params", list (ofTypeExprs params)), ("return_type", ofResult result),
       ("position", ofSpan span)]
  | .struct fields span =>
    node "Struct" "StructType" [("members", list (ofFields fields)), ("position", ofSpan span)]
  | .contract members span =>
    node "Contract" "ContractType"
      [("members", list (ofRequirements members)), ("position", ofSpan span)]
  | .aliased target span =>
    node "Alias" "AliasType" [("target", ofTypeExpr target), ("position", ofSpan span)]

def ofTypeExprs : List TypeExpr → List Tree
  | [] => []
  | type :: rest => ofTypeExpr type :: ofTypeExprs rest

def ofResult : Option TypeExpr → Tree
  | .none => none
  | .some type => some (ofTypeExpr type)

def ofResults : List (Option TypeExpr) → List Tree
  | [] => []
  | type :: rest => ofResult type :: ofResults rest

def ofField : FieldOf TypeExpr → Tree
  | ⟨name, type, optional⟩ =>
    record "StructMember"
      [("name", ofName name), ("ty", ofTypeExpr type), ("optional", ofBool optional)]

def ofFields : List (FieldOf TypeExpr) → List Tree
  | [] => []
  | field :: rest => ofField field :: ofFields rest

def ofRequirement : RequirementOf TypeExpr → Tree
  | .method name params result =>
    node "Method" "MethodSignature"
      [("name", ofName name), ("params", list (ofResults params)), ("return_type", ofResult result)]
  | .getter name result =>
    node "Getter" "GetterType" [("name", ofName name), ("return_type", ofTypeExpr result)]

def ofRequirements : List (RequirementOf TypeExpr) → List Tree
  | [] => []
  | member :: rest => ofRequirement member :: ofRequirements rest

end

def ofTypeParam (p : TypeParam) : Tree :=
  record "TypeParameter" [("name", ofName p.name), ("constraint", ofResult p.bound)]

def ofBinaryOp (op : BinaryOp) : Tree :=
  leaf <| match op with
    | .add => "Add"
    | .sub => "Sub"
    | .mul => "Mul"
    | .div => "Div"
    | .mod => "Mod"
    | .pow => "Pow"
    | .eq => "Eq"
    | .notEq => "NotEq"
    | .lt => "Lt"
    | .gt => "Gt"
    | .ltEq => "LtEq"
    | .gtEq => "GtEq"
    | .and => "And"
    | .or => "Or"

def ofUnaryOp (op : UnaryOp) : Tree :=
  leaf <| match op with
    | .negate => "Negate"
    | .not => "Not"

mutual

def ofExpr : Expr → Tree
  | .assign target value =>
    node "Assignment" "AssignmentExpr" [("assignee", ofExpr target), ("value", ofExpr value)]
  | .member object computed property span =>
    node "Member" "MemberExpr"
      [("object", ofExpr object), ("property", ofExpr property), ("computed", ofBool computed),
       ("position", ofSpan span)]
  | .call callee args span =>
    node "Call" "CallExpr"
      [("caller", ofExpr callee), ("args", list (ofExprs args)), ("position", ofSpan span)]
  | .binary op left right =>
    node "Binary" "BinaryExpr"
      [("left", ofExpr left), ("op", ofBinaryOp op), ("right", ofExpr right)]
  | .unary op operand span =>
    node "Unary" "UnaryExpr"
      [("op", ofUnaryOp op), ("operand", ofExpr operand), ("position", ofSpan span)]
  | .var name => tuple "Identifier" [ofName name]
  | .number value span =>
    tuple "NumericLiteral" [placed (leaf (Number.pointed value.toFloat)) span]
  | .text template names holes span =>
    node "StringLiteral" "StringLiteral"
      [("value", ofText template), ("identifiers", list (names.map ofText)),
       ("expressions", list (ofHoles 0 holes)), ("position", ofSpan span)]
  | .array elements span =>
    node "ArrayLiteral" "ArrayLiteral"
      [("elements", list (ofExprs elements)), ("position", ofSpan span)]
  | .object struct typeArgs properties span =>
    node "ObjectLiteral" "ObjectLiteral"
      [("instance_of", ofOption ofName struct), ("type_args", list (ofTypeExprs typeArgs)),
       ("properties", list (ofProperties properties)), ("position", ofSpan span)]

def ofExprs : List Expr → List Tree
  | [] => []
  | e :: rest => ofExpr e :: ofExprs rest

/-- Expressions of a template from the `k`-th on, each with its placeholder. -/
def ofHoles (k : Nat) : List Expr → List Tree
  | [] => []
  | e :: rest => tuple "" [ofText (placeholder k), ofExpr e] :: ofHoles (k + 1) rest

def ofProperties : List (Name × Option Expr) → List Tree
  | [] => []
  | (name, value) :: rest =>
    record "Property" [("key", ofName name), ("value", ofValue value)] :: ofProperties rest

def ofValue : Option Expr → Tree
  | .none => none
  | .some e => some (ofExpr e)

end

def ofModifier (m : Modifier) : Tree :=
  leaf <| match m with
    | .mutable => "Variable"
    | .final => "Final"
    | .constant => "Constant"

def ofVarDecl (d : VarDecl) : Tree :=
  record "VarDeclaration"
    [("modifier", ofModifier d.modifier), ("name", ofName d.name), ("ty", ofResult d.type),
     ("value", ofValue d.value)]

def ofParam (p : Param) : Tree :=
  record "Param" [("name", ofName p.name), ("ty", ofResult p.type), ("default", ofValue p.fallback)]

def ofLoop (id : Nat) : String × Tree :=
  ("loop_id", ofText (loopName id))

def ofLabel (label : Option Name) : String × Tree :=
  ("label", ofOption ofName label)

mutual

def ofStmt : Stmt → Tree
  | .varDecl decl => tuple "VarDeclaration" [ofVarDecl decl]
  | .varDecls decls =>
    node "MultiVarDeclaration" "MultiVarDeclaration" [("declarations", list (decls.map ofVarDecl))]
  | .function decl => tuple "FunctionDeclaration" [ofFunction decl]
  | .ret value span =>
    node "Return" "ReturnStatement" [("value", ofValue value), ("position", ofSpan span)]
  | .ifElse branches otherwise =>
    node "IfElse" "IfElseStatement"
      [("branches", list (ofBranches branches)), ("else_body", ofElse otherwise)]
  | .whileLoop id condition body =>
    node "While" "WhileStatement"
      [ofLoop id, ("condition", ofExpr condition), ("body", list (ofStmts body))]
  | .forLoop id label init condition update body =>
    node "For" "ForStatement"
      [ofLoop id, ofLabel label, ("init", ofInit init), ("condition", ofValue condition),
       ("update", ofValue update), ("body", list (ofStmts body))]
  | .forIn id label index value iterable body =>
    node "ForIn" "ForInStatement"
      [ofLoop id, ofLabel label, ("index", ofOption ofName index), ("value", ofName value),
       ("iterable", ofExpr iterable), ("body", list (ofStmts body))]
  | .forRange id label index value range body =>
    node "ForRange" "ForRangeStatement"
      [ofLoop id, ofLabel label, ("index", ofOption ofName index), ("value", ofName value),
       ("start", ofExpr range.start), ("end", ofExpr range.stop),
       ("inclusive", ofBool range.inclusive), ("step", ofValue range.step),
       ("body", list (ofStmts body))]
  | .leave id label span =>
    node "Break" "BreakStatement" [ofLoop id, ofLabel label, ("position", ofSpan span)]
  | .skip id label span =>
    node "Continue" "ContinueStatement" [ofLoop id, ofLabel label, ("position", ofSpan span)]
  | .typeDecl name params definition =>
    node "TypeDeclaration" "TypeDeclaration"
      [("name", ofName name), ("type_params", list (params.map ofTypeParam)),
       ("definition", ofTypeExpr definition)]
  | .fulfill contract target methods getters =>
    node "ContractFulfillment" "ContractFulfillment"
      [("contract", ofName contract), ("target", ofName target),
       ("methods", list (ofFunctions methods)), ("getters", list (ofGetters getters))]
  | .expr e => tuple "Expr" [ofExpr e]

def ofStmts : List Stmt → List Tree
  | [] => []
  | s :: rest => ofStmt s :: ofStmts rest

def ofElse : Option (List Stmt) → Tree
  | .none => none
  | .some body => some (list (ofStmts body))

def ofInit : Option Stmt → Tree
  | .none => none
  | .some s => some (ofStmt s)

def ofBranches : List (Expr × List Stmt) → List Tree
  | [] => []
  | (condition, body) :: rest =>
    record "ConditionalBranch" [("condition", ofExpr condition), ("body", list (ofStmts body))] ::
      ofBranches rest

def ofFunction : FunctionOf Stmt → Tree
  | ⟨name, typeParams, receiver, params, result, body, span⟩ =>
    record "FunctionDeclaration"
      [("name", ofName name), ("type_params", list (typeParams.map ofTypeParam)),
       ("receiver", ofOption ofName receiver), ("params", list (params.map ofParam)),
       ("return_type", ofResult result), ("body", list (ofStmts body)), ("position", ofSpan span)]

def ofFunctions : List (FunctionOf Stmt) → List Tree
  | [] => []
  | f :: rest => ofFunction f :: ofFunctions rest

def ofGetters : List (GetterOf Stmt) → List Tree
  | [] => []
  | ⟨name, result, body⟩ :: rest =>
    record "GetterImpl"
      [("name", ofName name), ("return_type", ofTypeExpr result), ("body", list (ofStmts body))] ::
      ofGetters rest

end

end Tree

/-- The tree of a program. -/
def Program.tree (p : Program) : Tree :=
  .record "Program" [("file", .ofText p.file), ("body", .list (Tree.ofStmts p.body))]

/-- A program written out as a tree. -/
def Program.outline (p : Program) : String :=
  p.tree.render ""

end Sable
