import Sable.Eval.Machine

/-!
# Evaluating what lies inside

Every rule of evaluation is given the evaluators for the expressions and statements inside the one
it is about. A rule never refers to itself; the recursion is closed once, at the end.
-/

namespace Sable

/-- Evaluators for the parts of an expression or statement, in given scopes. -/
structure Inner (ω : Type) where
  expr : Env → Expr → Eval ω Value
  stmt : Env → Stmt → Eval ω Flow

namespace Inner

variable {ω : Type} [Observer ω]

/-- Evaluates expressions from left to right. -/
def exprs (inner : Inner ω) (env : Env) : List Expr → Eval ω (List Value)
  | [] => return []
  | e :: rest => do
    let v ← inner.expr env e
    return v :: (← inner.exprs env rest)

/-- Runs statements in order up to the first that jumps, `last` being the value of the one before. -/
def bodyFrom (inner : Inner ω) (env : Env) : Value → List Stmt → Eval ω Flow
  | last, [] => return .normal last
  | _, s :: rest => do
    match ← inner.stmt env s with
    | .normal v => inner.bodyFrom env v rest
    | flow => return flow

/-- Runs statements in the given scopes. -/
def body (inner : Inner ω) (env : Env) (stmts : List Stmt) : Eval ω Flow :=
  inner.bodyFrom env .nothing stmts

/-- Runs statements in a scope of their own. -/
def block (inner : Inner ω) (env : Env) (stmts : List Stmt) : Eval ω Flow := do
  let scope ← Eval.create (·.newScope env)
  inner.body scope stmts

end Inner

end Sable
