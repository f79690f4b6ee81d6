import Sable.Eval.Inner

/-!
# Loops

A loop takes the jumps that carry its number and passes all others on.
-/

namespace Sable

variable {ω : Type} [Observer ω]

/-- What a loop does after its body. -/
inductive LoopStep where
  | again
  | stop
  | escape (flow : Flow)

def LoopStep.ofFlow (id : Nat) : Flow → LoopStep
  | .normal _ => again
  | .skip target => if target = id then again else escape (.skip target)
  | .leave target => if target = id then stop else escape (.leave target)
  | .ret v => escape (.ret v)

namespace Eval

/-- Runs the body and what follows it as long as the test holds. -/
def loop (id : Nat) (test : Eval ω Bool) (body : Eval ω Flow) (update : Eval ω Unit) :
    (fuel : Nat) → Eval ω Flow
  | 0 => stuck
  | fuel + 1 => do
    if ← test then
      match LoopStep.ofFlow id (← body) with
      | .again =>
        update
        loop id test body update fuel
      | .stop => return .normal .nothing
      | .escape flow => return flow
    else return .normal .nothing

/-- Runs the body for every item, counting from `k`. -/
def forEach (id : Nat) (body : Nat → Value → Eval ω Flow) : (k : Nat) → List Value → Eval ω Flow
  | _, [] => return .normal .nothing
  | k, item :: rest => do
    match LoopStep.ofFlow id (← body k item) with
    | .again => forEach id body (k + 1) rest
    | .stop => return .normal .nothing
    | .escape flow => return flow

end Eval

/-- The numbers of a range loop. -/
structure Range where
  start : Float
  stop : Float
  step : Float
  inclusive : Bool

namespace Range

/-- The `k`-th number, from zero. -/
def nth (r : Range) (k : Nat) : Float :=
  r.start + Float.ofNat k * r.step

/-- A number lies within the range: a range with a negative step runs down. -/
def has (r : Range) (x : Float) : Bool :=
  match decide (0 < r.step), r.inclusive with
  | true, true => x ≤ r.stop
  | true, false => x < r.stop
  | false, true => r.stop ≤ x
  | false, false => r.stop < x

end Range

/-- Runs the body for every number of a range, counting from `k`. -/
def Eval.forRange (id : Nat) (range : Range) (body : Nat → Value → Eval ω Flow) :
    (fuel : Nat) → (k : Nat) → Eval ω Flow
  | 0, _ => stuck
  | fuel + 1, k => do
    if range.has (range.nth k) then
      match LoopStep.ofFlow id (← body k (.number (range.nth k))) with
      | .again => forRange id range body fuel (k + 1)
      | .stop => return .normal .nothing
      | .escape flow => return flow
    else return .normal .nothing

namespace Inner

/-- Runs the body of an iteration in a scope of its own, where the variables of the loop are
bound. -/
def iterate (inner : Inner ω) (env : Env) (index : Option Name) (value : Name) (body : List Stmt)
    (k : Nat) (item : Value) : Eval ω Flow := do
  let scope ← Eval.create (·.newScope env)
  if let some index := index then
    Eval.declare scope index.text (.number (Float.ofNat k)) .final none
  Eval.declare scope value.text item .final none
  inner.body scope body

def test (inner : Inner ω) (env : Env) (condition : Expr) : Eval ω Bool := do
  return (← inner.expr env condition).truthy

def whileLoop (inner : Inner ω) (fuel : Nat) (env : Env) (id : Nat) (condition : Expr)
    (body : List Stmt) : Eval ω Flow :=
  Eval.inLoop (loopName id)
    (Eval.loop id (inner.test env condition) (inner.block env body) (pure ()) fuel)

/-- A loop without a condition goes on. -/
def test? (inner : Inner ω) (env : Env) : Option Expr → Eval ω Bool
  | some e => inner.test env e
  | none => pure true

def update? (inner : Inner ω) (env : Env) : Option Expr → Eval ω Unit
  | some e => do let _ ← inner.expr env e
  | none => pure ()

def forLoop (inner : Inner ω) (fuel : Nat) (env : Env) (id : Nat) (init : Option Stmt)
    (condition update : Option Expr) (body : List Stmt) : Eval ω Flow := do
  let scope ← Eval.create (·.newScope env)
  if let some init := init then
    let _ ← inner.stmt scope init
  Eval.inLoop (loopName id)
    (Eval.loop id (inner.test? scope condition) (inner.block scope body)
      (inner.update? scope update) fuel)

/-- The items that a value is made of. -/
def items (v : Value) : Eval ω (List Value) :=
  match v with
  | .array a => Eval.ask fun store => (store.array a).toList
  | .text s => pure (s.toList.map fun c => .text (String.singleton c))
  | other => Eval.query fun store => .error (.notIterable (store.typeOf other))

def forIn (inner : Inner ω) (env : Env) (id : Nat) (index : Option Name) (value : Name)
    (iterable : Expr) (body : List Stmt) : Eval ω Flow := do
  let items ← items (← inner.expr env iterable)
  Eval.inLoop (loopName id) (Eval.forEach id (inner.iterate env index value body) 0 items)

/-- The number that an expression of a range stands for. -/
def number (inner : Inner ω) (env : Env) (role : String) (e : Expr) : Eval ω Float := do
  match ← inner.expr env e with
  | .number x => return x
  | other => Eval.query fun store => .error (.notANumber role (store.typeOf other))

def range (inner : Inner ω) (env : Env) (r : RangeExpr) : Eval ω Range := do
  let start ← inner.number env "Range start" r.start
  let stop ← inner.number env "Range end" r.stop
  let step ← match r.step with
    | some e => inner.number env "Range step" e
    | none => pure 1
  if step == 0 then Eval.raise .zeroStep
  else return ⟨start, stop, step, r.inclusive⟩

def forRange (inner : Inner ω) (fuel : Nat) (env : Env) (id : Nat) (index : Option Name)
    (value : Name) (r : RangeExpr) (body : List Stmt) : Eval ω Flow := do
  let range ← inner.range env r
  Eval.inLoop (loopName id)
    (Eval.forRange id range (inner.iterate env index value body) fuel 0)

end Inner

end Sable
