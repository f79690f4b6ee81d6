import Sable.Eval.Machine

/-!
# Declarations of types and fulfillments

`Eval.typeDef` evaluates the type that a declaration gives a name to, and `Eval.fulfill` records methods
and getters for a struct.
-/

namespace Sable.Eval

variable {ω : Type} [Observer ω]

/-- The type that a declaration gives a name to. While the members of a struct are evaluated, its name
stands for it in a scope of their own. -/
def typeDef (env : Env) (name : String) (params : List TypeParam) : TypeExpr → Eval ω Ty
  | .struct fields _ => do
    let (bounds, subst) ← resolve (TypeParam.bounds params) fun store =>
      store.evalTypeParams env params
    let inside ← create (·.newScope env)
    declareType inside name (.struct name bounds [])
    let members ← resolve (fields.map (·.type)) fun store => store.evalFields inside subst fields
    return .struct name bounds members
  | definition => resolve (TypeParam.bounds params ++ definition.annotations) fun store =>
      store.evalTypeDef env name params definition

/-- Records what a struct gives for a contract, method by method and getter by getter, once all that
the contract asks for is there. -/
def fulfill (env : Env) (contract target : String) (methods : List Function)
    (getters : List Getter) : Eval ω Unit := do
  let members ← query fun store => store.contractMembers env contract
  let tag ← query fun store => store.structTag env target
  members.forM fun member => resolve (Store.givenAnnotations methods getters member.name) fun store =>
    store.checkMember env contract target methods getters member
  methods.forM fun f => change (·.addMethod env tag f.name.text (.function ⟨f, env⟩))
  getters.forM fun g => change (·.addGetter env tag g.name.text (.function ⟨g.toFunction, env⟩))
  change (·.addFulfillment env tag contract)

end Sable.Eval
