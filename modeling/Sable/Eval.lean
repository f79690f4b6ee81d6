import Sable.Eval.Declarations
import Sable.Eval.Loops
import Sable.Eval.Objects
import Sable.Eval.Operators
import Sable.Eval.Templates

/-!
# The rules of evaluation

The rule for every form of expression and statement, and the evaluators themselves. Fuel bounds how
deep evaluation goes and how often a loop runs; the evaluators inside a rule have one unit less.
-/

namespace Sable

variable {ω : Type} [Observer ω]

namespace Inner

/-- A call with a name behind a dot is a call of a method, if the struct of the object has one. -/
def call (cfg : Config) (inner : Inner ω) (env : Env) (callee : Expr) (args : List Expr)
    (span : Span) : Eval ω Value := do
  let (f, receiver) ← match callee with
    | .member object false property memberSpan => do
      let object ← inner.expr env object
      let name ← Eval.query fun _ => property.propertyName
      let method ← match object with
        | .object a => Eval.ask fun store =>
          (store.object a).tag.bind fun tag => store.method? env tag name
        | _ => pure none
      match method with
      | some method => pure (method, some object)
      | none => pure (← inner.readProperty cfg env object name memberSpan, none)
    | other => pure (← inner.expr env other, none)
  let args ← inner.exprs env args
  inner.callValue cfg f args receiver span

def assign (inner : Inner ω) (env : Env) (target value : Expr) : Eval ω Value :=
  match target with
  | .var name => do
    let v ← inner.expr env value
    Eval.assign env name.text v
    return v
  | .member object computed property _ =>
    inner.assignMember env object (inner.memberKey env computed property) value
  | other => Eval.raise (.notATarget other.form)

/-- The rule for each form of expression. Both operands are evaluated whatever the operator. -/
def exprRule (cfg : Config) (inner : Inner ω) (env : Env) : Expr → Eval ω Value
  | .var name => Eval.query fun store => store.lookup env name.text
  | .number value _ => return .number value.toFloat
  | .text template names holes _ => inner.template env template names holes
  | .array elements _ => do
    let items ← inner.exprs env elements
    Eval.create (·.newArray items.toArray)
  | .object struct typeArgs given _ => inner.object env struct typeArgs given
  | .unary op operand _ => do
    return op.apply (← inner.expr env operand)
  | .binary op left right => do
    let left ← inner.expr env left
    let right ← inner.expr env right
    return op.apply left right
  | .assign target value => inner.assign env target value
  | .member object computed property span => do
    let path := object.path
    let object ← inner.expr env object
    if computed then
      let key ← inner.expr env property
      inner.readIndex cfg env object key path span
    else
      let name ← Eval.query fun _ => property.propertyName
      inner.readProperty cfg env object name span
  | .call callee args span => inner.call cfg env callee args span

/-- Declares a variable, after its value and its type have been found. -/
def varDecl (inner : Inner ω) (env : Env) (decl : VarDecl) : Eval ω Value := do
  let v ← match decl.value with
    | some e => inner.expr env e
    | none => pure .null
  let type ← Eval.resolve decl.type.toList fun store => store.evalResult env [] decl.type
  Eval.declare env decl.name.text v decl.modifier type
  return v

/-- Declares variables in order; the value is that of the last. -/
def varDecls (inner : Inner ω) (env : Env) : Value → List VarDecl → Eval ω Value
  | last, [] => return last
  | _, decl :: rest => do
    let v ← inner.varDecl env decl
    inner.varDecls env v rest

/-- Runs the body of the first branch whose condition holds. -/
def ifElse (inner : Inner ω) (env : Env) (otherwise : Option (List Stmt)) :
    List (Expr × List Stmt) → Eval ω Flow
  | [] =>
    match otherwise with
    | some body => inner.block env body
    | none => return .normal .nothing
  | (condition, body) :: rest => do
    if ← inner.test env condition then inner.block env body
    else inner.ifElse env otherwise rest

/-- The rule for each form of statement. -/
def stmtRule (inner : Inner ω) (fuel : Nat) (env : Env) : Stmt → Eval ω Flow
  | .varDecl decl => do
    return .normal (← inner.varDecl env decl)
  | .varDecls decls => do
    return .normal (← inner.varDecls env .nothing decls)
  | .function decl => do
    let f := Value.function ⟨decl, env⟩
    Eval.declare env decl.name.text f .final none
    return .normal f
  | .ret none _ => return .ret .null
  | .ret (some e) _ => do
    return .ret (← inner.expr env e)
  | .ifElse branches otherwise => inner.ifElse env otherwise branches
  | .whileLoop id condition body => inner.whileLoop fuel env id condition body
  | .forLoop id _ init condition update body =>
    inner.forLoop fuel env id init condition update body
  | .forIn id _ index value iterable body => inner.forIn env id index value iterable body
  | .forRange id _ index value range body => inner.forRange fuel env id index value range body
  | .leave id _ _ => return .leave id
  | .skip id _ _ => return .skip id
  | .typeDecl name params definition => do
    let type ← Eval.typeDef env name.text params definition
    Eval.declareType env name.text type
    return .normal (.type type)
  | .fulfill contract target methods getters => do
    Eval.fulfill env contract.text target.text methods getters
    return .normal .nothing
  | .expr e => do
    return .normal (← inner.expr env e)

end Inner

namespace Eval

mutual

/-- Evaluates an expression. -/
def expr (cfg : Config) : (fuel : Nat) → Env → Expr → Eval ω Value
  | 0, _, _ => stuck
  | fuel + 1, env, e => Inner.exprRule cfg ⟨expr cfg fuel, stmt cfg fuel⟩ env e

/-- Runs a statement. -/
def stmt (cfg : Config) : (fuel : Nat) → Env → Stmt → Eval ω Flow
  | 0, _, _ => stuck
  | fuel + 1, env, s => Inner.stmtRule ⟨expr cfg fuel, stmt cfg fuel⟩ fuel env s

end

end Eval

end Sable
