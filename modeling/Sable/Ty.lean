import Sable.Program.TypeExpr

/-!
# Types

What annotations, declarations and values come down to when a program runs. A struct without a name
is the shape of an anonymous object.
-/

namespace Sable

/-- A member of a struct, with types of type `τ`. -/
structure MemberOf (τ : Type) where
  name : String
  type : τ
  optional : Bool

/-- A parameter of a generic struct with the bound on its arguments, of type `τ`. -/
structure BoundOf (τ : Type) where
  name : String
  bound : Option τ

/-- What a contract asks for, with types of type `τ`. -/
inductive SignatureOf (τ : Type) where
  | method (name : String) (params : List τ) (result : τ)
  | getter (name : String) (result : τ)

inductive Ty where
  | primitive (type : Primitive)
  | struct (name : String) (params : List (BoundOf Ty)) (members : List (MemberOf Ty))
  | aliased (name : String) (target : Ty)
  /-- A generic struct with its arguments. -/
  | generic (name : String) (args : List Ty)
  | union (members : List Ty)
  | array (element : Ty)
  | param (name : String) (bound : Option Ty)
  | function (params : List Ty) (result : Option Ty)
  | contract (name : String) (members : List (SignatureOf Ty))

abbrev Member := MemberOf Ty

abbrev Bound := BoundOf Ty

abbrev Signature := SignatureOf Ty

namespace SignatureOf

def name {τ : Type} : SignatureOf τ → String
  | method name _ _ | getter name _ => name

end SignatureOf

namespace Ty

/-- The type that fits everything. -/
def dynamic : Ty :=
  .primitive .dynamic

def null : Ty :=
  .primitive .null

def isDynamic : Ty → Bool
  | primitive .dynamic => true
  | _ => false

/-- The type behind an alias. -/
def unaliased : Ty → Ty
  | aliased _ target => unaliased target
  | type => type

/-- The name of the form of a type. -/
def form : Ty → String
  | primitive _ => "primitive"
  | struct .. => "struct"
  | aliased .. => "alias"
  | generic .. => "generic"
  | union _ => "union"
  | array _ => "array"
  | param .. => "typeParameter"
  | function .. => "function"
  | contract .. => "contract"

/-- The types that need parentheses in front of brackets. -/
def isOpen : Ty → Bool
  | union _ | function .. => true
  | _ => false

/-- A name with arguments in angle brackets, if there are any. -/
def applied (name : String) (args : List String) : String :=
  if args.isEmpty then name else name ++ "<" ++ ", ".intercalate args ++ ">"

mutual

/-- A type as text. -/
def text : Ty → String
  | primitive type => type.name
  | struct name _ members =>
    if name.isEmpty then "\x7b" ++ ", ".intercalate (memberTexts members) ++ "\x7d" else name
  | aliased name _ => name
  | generic name args => applied name (texts args)
  | union members => " | ".intercalate (texts members)
  | array element => if element.isOpen then "(" ++ text element ++ ")[]" else text element ++ "[]"
  | param name _ => name
  | function params result => "fn(" ++ ", ".intercalate (texts params) ++ ")" ++ resultText result
  | contract name _ => name

def texts : List Ty → List String
  | [] => []
  | type :: rest => text type :: texts rest

def resultText : Option Ty → String
  | none => ""
  | some type => " -> " ++ text type

def memberTexts : List (MemberOf Ty) → List String
  | [] => []
  | ⟨name, type, optional⟩ :: rest =>
    (name ++ (if optional then "?" else "") ++ ": " ++ text type) :: memberTexts rest

end

mutual

/-- Equality of types as they stand, names and order included. -/
def beq : Ty → Ty → Bool
  | primitive a, primitive b => a == b
  | struct a ps ms, struct b qs ns => a == b && beqBounds ps qs && beqMembers ms ns
  | aliased a s, aliased b t => a == b && beq s t
  | generic a ss, generic b ts => a == b && beqs ss ts
  | union ss, union ts => beqs ss ts
  | array s, array t => beq s t
  | param a s, param b t => a == b && beqOption s t
  | function ss s, function ts t => beqs ss ts && beqOption s t
  | contract a ms, contract b ns => a == b && beqSignatures ms ns
  | _, _ => false

def beqs : List Ty → List Ty → Bool
  | [], [] => true
  | s :: ss, t :: ts => beq s t && beqs ss ts
  | _, _ => false

def beqOption : Option Ty → Option Ty → Bool
  | none, none => true
  | some s, some t => beq s t
  | _, _ => false

def beqBounds : List (BoundOf Ty) → List (BoundOf Ty) → Bool
  | [], [] => true
  | ⟨a, s⟩ :: ps, ⟨b, t⟩ :: qs => a == b && beqOption s t && beqBounds ps qs
  | _, _ => false

def beqMembers : List (MemberOf Ty) → List (MemberOf Ty) → Bool
  | [], [] => true
  | ⟨a, s, o⟩ :: ms, ⟨b, t, p⟩ :: ns => a == b && beq s t && o == p && beqMembers ms ns
  | _, _ => false

def beqSignatures : List (SignatureOf Ty) → List (SignatureOf Ty) → Bool
  | [], [] => true
  | .method a ss s :: ms, .method b ts t :: ns =>
    a == b && beqs ss ts && beq s t && beqSignatures ms ns
  | .getter a s :: ms, .getter b t :: ns => a == b && beq s t && beqSignatures ms ns
  | _, _ => false

end

instance : BEq Ty :=
  ⟨beq⟩

end Ty

/-- A member of a contract as text. -/
def Signature.text : Signature → String
  | .method name params result =>
    name ++ "(" ++ ", ".intercalate (params.map Ty.text) ++ ") -> " ++ result.text
  | .getter name result => "get " ++ name ++ " -> " ++ result.text

/-- The first member with the given name. -/
def Member.find? (members : List Member) (name : String) : Option Member :=
  List.find? (fun m => m.name == name) members

end Sable
