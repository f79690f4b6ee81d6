import Sable.Number.Format
import Sable.Store
import Sable.Text.Quoted

/-!
# Values as text

A text on its own is shown as it is, and quoted inside an object or array. A container that is met
inside itself is only marked. On the way down no container is met twice, so a bound above their
number is never reached.
-/

namespace Sable

/-- A container in the store. -/
inductive Container where
  | object (address : Nat)
  | array (address : Nat)
  deriving DecidableEq

namespace Store

/-- More than the number of containers. -/
def depth (s : Store) : Nat :=
  s.objects.size + s.arrays.size + 1

def cycleMark : String :=
  "<cycle>"

/-- A value inside a container, or a container: texts are quoted. `seen` are the containers around
it. -/
def renderWithin (s : Store) : (depth : Nat) → (seen : List Container) → Value → String
  | 0, _, _ => cycleMark
  | depth + 1, seen, v =>
    match v with
    | .null => "null"
    | .number x => Number.plain x
    | .text t => Text.quote t
    | .bool b => if b then "true" else "false"
    | .builtin f => s!"<native fn {f.name}>"
    | .function f => s!"<fn {f.function.name.text}>"
    | .type t => s!"<type {t.text}>"
    | .nothing => ""
    | .object a =>
      if .object a ∈ seen then cycleMark
      else
        let o := s.object a
        let tag := match o.tag with
          | some name => name ++ " "
          | none => ""
        if o.properties.isEmpty then tag ++ "\x7b\x7d"
        else
          let shown := o.properties.map fun (name, v) =>
            name ++ ": " ++ s.renderWithin depth (.object a :: seen) v
          tag ++ "\x7b " ++ ", ".intercalate shown ++ " \x7d"
    | .array a =>
      if .array a ∈ seen then cycleMark
      else
        let shown := (s.array a).toList.map fun v => s.renderWithin depth (.array a :: seen) v
        "[" ++ ", ".intercalate shown ++ "]"

/-- A value as it is printed. -/
def render (s : Store) : Value → String
  | .text t => t
  | v => s.renderWithin s.depth [] v

end Store

end Sable
