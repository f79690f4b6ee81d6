import Sable.Store.Render

/-!
# The types of values

The type of an object or array follows what it contains at the moment. A container that is met
inside itself counts as dynamic there.
-/

namespace Sable

/-- The type of a scalar; everything else is dynamic. -/
def Value.scalarType : Value → Ty
  | .number _ => .primitive .number
  | .text _ => .primitive .text
  | .bool _ => .primitive .bool
  | _ => .dynamic

namespace Store

/-- The types of a list, each once, in order of first appearance. -/
def distinct (types : List Ty) : List Ty :=
  types.foldl (fun seen t => if seen.contains t then seen else seen ++ [t]) []

/-- The type of an array with elements of these types. -/
def arrayType (elements : List Ty) : Ty :=
  match distinct elements with
  | [] => .array .dynamic
  | [t] => .array t
  | ts => .array (.union ts)

/-- The type of a value inside the containers `seen`. -/
def typeWithin (s : Store) : (depth : Nat) → (seen : List Container) → Value → Ty
  | 0, _, _ => .dynamic
  | depth + 1, seen, v =>
    match v with
    | .null | .nothing => .null
    | .number _ | .text _ | .bool _ => v.scalarType
    | .builtin _ | .type _ => .dynamic
    | .function f => .function (f.function.params.map fun _ => .dynamic) none
    | .object a =>
      if .object a ∈ seen then .dynamic
      else
        let o := s.object a
        match o.tag, o.typeArgs with
        | some name, arg :: args => .generic name (arg :: args)
        | _, _ =>
          .struct (o.tag.getD "") [] (o.properties.map fun (name, v) =>
            ⟨name, s.typeWithin depth (.object a :: seen) v, false⟩)
    | .array a =>
      if .array a ∈ seen then .dynamic
      else arrayType ((s.array a).toList.map fun v => s.typeWithin depth (.array a :: seen) v)

/-- The type of a value. -/
def typeOf (s : Store) (v : Value) : Ty :=
  s.typeWithin s.depth [] v

end Store

end Sable
