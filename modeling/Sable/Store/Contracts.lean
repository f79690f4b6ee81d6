import Sable.Store.Types

/-!
# Fulfilling contracts

A struct fulfills a contract by giving a method or getter of the same signature for each member.
Nothing is recorded unless all of them are there.
-/

namespace Sable

namespace Store

/-- The members of the contract with the given name. -/
def contractMembers (s : Store) (env : Env) (name : String) : Except Fault (List Signature) :=
  match (s.type? env name).map Ty.unaliased with
  | none => .error (.unresolvedType name)
  | some (.contract _ members) => .ok members
  | some _ => .error (.notAContract name)

/-- The tag of instances of the struct with the given name. -/
def structTag (s : Store) (env : Env) (name : String) : Except Fault String :=
  match (s.type? env name).map Ty.unaliased with
  | none => .error (.unresolvedType name)
  | some (.struct tag _ _) => .ok tag
  | some _ => .error (.notAStruct name)

def methodSignature (s : Store) (env : Env) (f : Function) : Except Fault Signature := do
  let (_, subst) ← s.evalTypeParams env f.typeParams
  let params ← f.params.mapM fun param => s.evalTypeD env subst param.type
  return .method f.name.text params (← s.evalTypeD env subst f.result)

/-- The signature of what is given for a member, methods before getters. -/
def givenSignature (s : Store) (env : Env) (methods : List Function) (getters : List Getter)
    (member : String) : Except Fault (Option Signature) :=
  match methods.find? (·.name.text == member) with
  | some f => do return some (← s.methodSignature env f)
  | none =>
    match getters.find? (·.name.text == member) with
    | some g => do return some (.getter member (← s.evalType env [] g.result))
    | none => .ok none

/-- The annotations of what is given for a member. -/
def givenAnnotations (methods : List Function) (getters : List Getter) (member : String) :
    List TypeExpr :=
  match methods.find? (·.name.text == member) with
  | some f => f.annotations
  | none => ((getters.find? (·.name.text == member)).map (·.result)).toList

/-- What is given for a member is there and reads the same. -/
def checkMember (s : Store) (env : Env) (contract target : String) (methods : List Function)
    (getters : List Getter) (expected : Signature) : Except Fault Unit := do
  match ← s.givenSignature env methods getters expected.name with
  | none => throw (.missingMember contract expected.name target)
  | some given =>
    if given.text == expected.text then return ()
    else throw (.signatureMismatch given target contract expected)

/-- Records what a struct gives for a contract. -/
def fulfill (s : Store) (env : Env) (contract target : String) (methods : List Function)
    (getters : List Getter) : Except Fault Store := do
  let members ← s.contractMembers env contract
  let tag ← s.structTag env target
  members.forM (s.checkMember env contract target methods getters)
  let s := methods.foldl (fun s f => s.addMethod env tag f.name.text (.function ⟨f, env⟩)) s
  let s := getters.foldl
    (fun s g => s.addGetter env tag g.name.text (.function ⟨g.toFunction, env⟩)) s
  return s.addFulfillment env tag contract

end Store

end Sable
