import Sable.Eval.Builtins
import Sable.Eval.Inner

/-!
# Calls

Arguments are bound in a new scope inside those around the declaration. The call is on the stack from
the moment its arguments are bound to the end of its body.
-/

namespace Sable

variable {ω : Type} [Observer ω]

/-- Checks a value against a type asked for. -/
def Eval.demand (env : Env) (type : Ty) (v : Value) (fault : (actual : Ty) → Fault) : Eval ω Unit :=
  Eval.query fun store =>
    if store.accepts env type v then .ok () else .error (fault (store.typeOf v))

/-- Checks a value against a type, if one is asked for. -/
def Eval.demand? (env : Env) (type : Option Ty) (v : Value) (fault : (asked actual : Ty) → Fault) :
    Eval ω Unit :=
  match type with
  | some type => Eval.demand env type v (fault type)
  | none => pure ()

/-- What a call gives when its body ends this way. -/
def Flow.result : Flow → Value
  | .ret v => v
  | _ => .null

namespace Inner

/-- Binds the arguments of a call, in order. A null argument gives way to the fallback, which sees
the parameters before it. -/
def bindArgs (inner : Inner ω) (function : String) (scope : Env) (subst : Subst) :
    List (Param × Value) → Eval ω Unit
  | [] => return ()
  | (param, arg) :: rest => do
    let v ← match param.fallback, arg with
      | some e, .null => inner.expr scope e
      | _, arg => pure arg
    let type ← Eval.resolve param.type.toList fun store => store.evalResult scope subst param.type
    Eval.demand? scope type v (.paramMismatch param.name.text function)
    Eval.declare scope param.name.text v .mutable type
    inner.bindArgs function scope subst rest

/-- Calls a declared function. -/
def callFunction (cfg : Config) (inner : Inner ω) (f : Closure) (args : List Value)
    (receiver : Option Value) (span : Span) : Eval ω Value :=
  Eval.asCall f.function do
    let decl := f.function
    let name := decl.name.text
    if args.length ≠ decl.params.length then
      Eval.raise (.arity name decl.params.length args.length)
    else
      let scope ← Eval.create (·.newScope f.env)
      let (_, subst) ← Eval.resolve (TypeParam.bounds decl.typeParams) fun store =>
        store.evalTypeParams f.env decl.typeParams
      match decl.receiver, receiver with
      | some self, some object =>
        Eval.declare scope self.text object .mutable none
      | _, _ => pure ()
      inner.bindArgs name scope subst (decl.params.zip args)
      let flow ← Eval.inCall cfg decl ⟨name, span⟩ (inner.body scope decl.body)
      Eval.report (.finished decl flow)
      let type ← Eval.resolve decl.result.toList fun store =>
        store.evalResult scope subst decl.result
      Eval.demand? scope type flow.result (.returnMismatch name)
      return flow.result

/-- Calls a value. -/
def callValue (cfg : Config) (inner : Inner ω) (callee : Value) (args : List Value)
    (receiver : Option Value) (span : Span) : Eval ω Value :=
  match callee with
  | .builtin f => f.call cfg args
  | .function f => inner.callFunction cfg f args receiver span
  | other => Eval.raise (.notCallable other.kind)

end Inner

end Sable
