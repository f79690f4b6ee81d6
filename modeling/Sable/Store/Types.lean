import Sable.Store.Bindings

/-!
# Evaluating annotations

Names in an annotation are type parameters if the substitution knows them, and declared types
otherwise.
-/

namespace Sable

namespace Store

/-- The arguments of a generic struct are as many as its parameters and within their bounds. -/
def checkTypeArgs (name : String) (params : List Bound) (args : List Ty) : Except Fault Unit :=
  if args.length ≠ params.length then .error (.typeArity name params.length args.length)
  else
    (params.zip args).forM fun (param, arg) =>
      match param.bound with
      | none => .ok ()
      | some bound =>
        if arg.fits bound then .ok () else .error (.constraintViolation arg bound param.name)

mutual

/-- The type that an annotation stands for. -/
def evalType (s : Store) (env : Env) (subst : Subst) : TypeExpr → Except Fault Ty
  | .word text _ =>
    match Primitive.ofName? text with
    | some type => .ok (.primitive type)
    | none => .error (.notPrimitive text)
  | .named name =>
    match (subst.lookup name.text).orElse fun _ => s.type? env name.text with
    | some type => .ok type
    | none => .error (.unresolvedType name.text)
  | .generic name args =>
    match s.type? env name.text with
    | none => .error (.unresolvedType name.text)
    | some declared =>
      match declared.unaliased with
      | .struct base params _ => do
        let args ← evalTypes s env subst args
        checkTypeArgs base params args
        return .generic base args
      | _ => .error (.notAStruct name.text)
  | .union members _ => return .union (← evalTypes s env subst members)
  | .array element _ => return .array (← evalType s env subst element)
  | .function params result _ => do
    let params ← evalTypes s env subst params
    return .function params (← evalResult s env subst result)
  -- a declaration puts its name and its parameters in place of what is left open here
  | .struct fields _ => return .struct "" [] (← evalFields s env subst fields)
  | .contract members _ => return .contract "" (← evalRequirements s env subst members)
  | .aliased target _ => return .aliased "" (← evalType s env subst target)

def evalTypes (s : Store) (env : Env) (subst : Subst) : List TypeExpr → Except Fault (List Ty)
  | [] => .ok []
  | type :: rest => do
    let type ← evalType s env subst type
    return type :: (← evalTypes s env subst rest)

def evalResult (s : Store) (env : Env) (subst : Subst) : Option TypeExpr → Except Fault (Option Ty)
  | none => .ok none
  | some type => do return some (← evalType s env subst type)

/-- The type of an optional annotation, dynamic where there is none. -/
def evalTypeD (s : Store) (env : Env) (subst : Subst) : Option TypeExpr → Except Fault Ty
  | none => .ok .dynamic
  | some type => evalType s env subst type

def evalTypesD (s : Store) (env : Env) (subst : Subst) :
    List (Option TypeExpr) → Except Fault (List Ty)
  | [] => .ok []
  | type :: rest => do
    let type ← evalTypeD s env subst type
    return type :: (← evalTypesD s env subst rest)

def evalField (s : Store) (env : Env) (subst : Subst) : FieldOf TypeExpr → Except Fault Member
  | ⟨name, type, optional⟩ => do return ⟨name.text, ← evalType s env subst type, optional⟩

def evalFields (s : Store) (env : Env) (subst : Subst) :
    List (FieldOf TypeExpr) → Except Fault (List Member)
  | [] => .ok []
  | field :: rest => do
    let member ← evalField s env subst field
    return member :: (← evalFields s env subst rest)

def evalRequirement (s : Store) (env : Env) (subst : Subst) :
    RequirementOf TypeExpr → Except Fault Signature
  | .method name params result => do
    let params ← evalTypesD s env subst params
    return .method name.text params (← evalTypeD s env subst result)
  | .getter name result => return .getter name.text (← evalType s env subst result)

def evalRequirements (s : Store) (env : Env) (subst : Subst) :
    List (RequirementOf TypeExpr) → Except Fault (List Signature)
  | [] => .ok []
  | member :: rest => do
    let signature ← evalRequirement s env subst member
    return signature :: (← evalRequirements s env subst rest)

end

/-- Type parameters, a bound seeing the parameters before it, and the substitution that stands for
them. -/
def evalTypeParams (s : Store) (env : Env) :
    List TypeParam → (subst : Subst := []) → Except Fault (List Bound × Subst)
  | [], subst => .ok ([], subst)
  | param :: rest, subst => do
    let bound ← s.evalResult env subst param.bound
    let name := param.name.text
    let (bounds, subst) ← evalTypeParams s env rest ((name, .param name bound) :: subst)
    return (⟨name, bound⟩ :: bounds, subst)

/-- The members of a struct of the given name, which may speak of the struct itself. -/
def evalStruct (s : Store) (env : Env) (subst : Subst) (name : String) (params : List Bound)
    (fields : List FieldDecl) : Except Fault (List Member) :=
  let (inside, staged) := s.newScope env
  (staged.setType inside name (.struct name params [])).evalFields inside subst fields

/-- The type that a declaration gives a name to. An alias of an alias is refused. -/
def evalTypeDef (s : Store) (env : Env) (name : String) (params : List TypeParam) :
    TypeExpr → Except Fault Ty
  | .struct fields _ => do
    let (bounds, subst) ← s.evalTypeParams env params
    return .struct name bounds (← s.evalStruct env subst name bounds fields)
  | .contract members _ => do
    let (_, subst) ← s.evalTypeParams env params
    return .contract name (← s.evalRequirements env subst members)
  | .aliased target _ => do
    let (_, subst) ← s.evalTypeParams env params
    match ← s.evalType env subst target with
    | .aliased other _ => throw (.aliasChain name other)
    | target => return .aliased name target
  | type => do
    let (_, subst) ← s.evalTypeParams env params
    s.evalType env subst type

/-- Declares a type. -/
def declareTypeDef (s : Store) (env : Env) (name : String) (params : List TypeParam)
    (definition : TypeExpr) : Except Fault (Ty × Store) := do
  let type ← s.evalTypeDef env name params definition
  return (type, ← s.declareType env name type)

end Store

end Sable
