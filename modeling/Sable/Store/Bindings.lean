import Sable.Fault
import Sable.Store.Accepts

/-!
# Declaring and assigning variables

Each operation gives the new store, or a fault and no store at all.
-/

namespace Sable

/-- A mismatch for a variable of the given name. -/
def Mismatch.fault (name : String) : Mismatch → Fault
  | nominal actual expected => .nominalMismatch actual expected
  | structural actual expected => .variableMismatch name actual expected

namespace Store

def lookup (s : Store) (env : Env) (name : String) : Except Fault Value :=
  match s.binding? env name with
  | some b => .ok b.value
  | none => .error (.unresolvedVariable name)

/-- Binds a name in the scope at the address, in place of what it stood for there. -/
def bind (s : Store) (address : Nat) (name : String) (b : Binding) : Store :=
  s.modifyScope address fun scope => { scope with vars := Assoc.set name b scope.vars }

/-- The binding that a declaration in the innermost scope makes. A variable may be null at first
whatever its type, and the type of a value other than null is recorded where none is declared. -/
def declaration (s : Store) (env : Env) (name : String) (v : Value) (modifier : Modifier)
    (type : Option Ty) : Except Fault Binding :=
  if ((s.scope env.here).vars.lookup name).isSome then .error (.alreadyDeclared name)
  else
    match type with
    | none => .ok ⟨v, modifier, if v.isNull then none else some (s.typeOf v)⟩
    | some type =>
      if v.isNull ∧ modifier = .mutable then .ok ⟨v, modifier, some type⟩
      else
        match s.mismatch? env type v with
        | some m => .error (m.fault name)
        | none => .ok ⟨v, modifier, some type⟩

/-- Declares a name in the innermost scope. -/
def declare (s : Store) (env : Env) (name : String) (v : Value) (modifier : Modifier)
    (type : Option Ty) : Except Fault Store :=
  match s.declaration env name v modifier type with
  | .ok b => .ok (s.bind env.here name b)
  | .error fault => .error fault

/-- A name can be given another value. -/
def checkMutable (s : Store) (env : Env) (name : String) : Except Fault Unit :=
  match s.binding? env name with
  | none => .error (.unresolvedVariable name)
  | some b =>
    match b.modifier with
    | .constant => .error (.constantAssignment name)
    | .final => .error (.finalAssignment name)
    | .mutable => .ok ()

/-- The binding that an assignment makes, with the address of the innermost scope that binds the
name. A variable without a type takes that of its first value other than null. -/
def assignment (s : Store) (env : Env) (name : String) (v : Value) :
    Except Fault (Nat × Binding) := do
  s.checkMutable env name
  match s.owner? env name, s.binding? env name with
  | some address, some b =>
    match b.type with
    | none => return (address, ⟨v, b.modifier, if v.isNull then none else some (s.typeOf v)⟩)
    | some type =>
      match s.mismatch? env type v with
      | some m => throw (m.fault name)
      | none => return (address, ⟨v, b.modifier, some type⟩)
  | _, _ => throw (.unresolvedVariable name)

/-- Gives a name another value, in the innermost scope that binds it. -/
def assign (s : Store) (env : Env) (name : String) (v : Value) : Except Fault Store :=
  match s.assignment env name v with
  | .ok (address, b) => .ok (s.bind address name b)
  | .error fault => .error fault

/-- The scopes from the innermost one that binds a name outwards. -/
def owner (s : Store) (env : Env) (name : String) : Except Fault Env :=
  match env.path.dropWhile fun a => ((s.scope a).vars.lookup name).isNone with
  | here :: above => .ok ⟨here, above⟩
  | [] => .error (.unresolvedVariable name)

/-- A scope as text: its names in order, and whether there is a scope around it. -/
def describe (s : Store) (env : Env) : String :=
  let names := ((s.scope env.here).vars.map (·.1)).mergeSort (· ≤ ·)
  "Environment \x7b variables: [" ++ ", ".intercalate (names.map Text.quote) ++
    "], has_parent: " ++ (if env.above.isEmpty then "false" else "true") ++ " \x7d"

/-- A name can be given to a type in the innermost scope. -/
def checkTypeName (s : Store) (env : Env) (name : String) : Except Fault Unit :=
  if ((s.scope env.here).types.lookup name).isSome then .error (.typeAlreadyDeclared name)
  else .ok ()

/-- Gives a type a new name in the innermost scope. -/
def declareType (s : Store) (env : Env) (name : String) (type : Ty) : Except Fault Store := do
  s.checkTypeName env name
  return s.setType env name type

end Store

end Sable
