import Sable.Eval.Machine
import Sable.Text.Lines

/-!
# Built-in functions
-/

namespace Sable

namespace Builtin

variable {ω : Type} [Observer ω]

/-- The single argument of a built-in function. -/
def single (f : Builtin) : List Value → Eval ω Value
  | [v] => pure v
  | args => Eval.raise (.arity f.name 1 args.length)

/-- The number of characters, elements or properties. -/
def length (v : Value) : Eval ω Nat :=
  match v with
  | .text s => pure s.length
  | .array a => Eval.ask fun store => (store.array a).size
  | .object a => Eval.ask fun store => (store.object a).properties.length
  | other => Eval.raise (.noLength other.kind)

/-- The name of the type of a value. -/
def typeName (store : Store) (v : Value) : String :=
  match v with
  | .object a =>
    match (store.object a).tag with
    | none => "object"
    | some _ => (store.typeOf v).text
  | .builtin _ | .function _ => "function"
  | .type _ => "type"
  | other => (store.typeOf other).text

def call (cfg : Config) (f : Builtin) (args : List Value) : Eval ω Value := do
  match f with
  | print =>
    let line ← Eval.ask fun store => " ".intercalate (args.map store.render)
    Eval.note (·.write line)
    return .null
  | len =>
    let v ← f.single args
    return .number (Float.ofNat (← length v))
  | typeof =>
    let v ← f.single args
    return .text (← Eval.ask fun store => typeName store v)
  | str =>
    let v ← f.single args
    return .text (← Eval.ask fun store => store.render v)
  | time =>
    let reading ← Eval.consult (·.readings)
    Eval.note (·.countReading)
    return .number (cfg.clock reading)
  | trace =>
    Eval.note fun context => (Text.lines (context.trace cfg)).foldl Context.write context
    return .null

end Builtin

/-- A scope with the primitive types, the constants and the built-in functions. -/
def Store.bootstrap (s : Store) (env : Env) : Store :=
  let s := Primitive.all.foldl (fun s p => s.setType env p.name (.primitive p)) s
  let s := s.setConstant env "true" (.bool true)
  let s := s.setConstant env "false" (.bool false)
  let s := s.setConstant env "null" .null
  Builtin.all.foldl (fun s f => s.setConstant env f.name (.builtin f)) s

end Sable
