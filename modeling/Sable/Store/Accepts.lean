import Sable.Store.TypeOf
import Sable.Ty.Fits
import Sable.Ty.Subst

/-!
# Values against types

A value is checked against the type asked for: an instance of a struct by its tag, an instance
against a contract by what its struct fulfills, an array element by element, and everything else by
its own type.
-/

namespace Sable

/-- Why a value does not have the type asked for. -/
inductive Mismatch where
  /-- An instance of another struct. -/
  | nominal (actual : String) (expected : Ty)
  | structural (actual expected : Ty)

namespace Store

/-- A value by its own type against the type asked for. -/
def compare (s : Store) (type : Ty) (v : Value) : Option Mismatch :=
  if (s.typeOf v).fits type then none else some (.structural (s.typeOf v) type)

/-- An instance of the given struct where a generic type is asked for. Without arguments of its own
it has to fit the members of the generic struct with the arguments in place. -/
def compareGeneric (s : Store) (env : Env) (name : String) (args : List Ty) (o : Obj) (v : Value) :
    Option Mismatch :=
  let type := Ty.generic name args
  match o.tag with
  | none => s.compare type v
  | some tag =>
    if tag != name then some (.nominal tag type)
    else if !o.typeArgs.isEmpty then s.compare type v
    else
      match s.type? env name with
      | some (.struct base params members) =>
        let expected := Ty.subst (.ofArgs params args) (.struct base params members)
        (s.compare expected v).map fun _ => .structural (s.typeOf v) type
      | _ => some (.structural (s.typeOf v) type)

mutual

/-- What keeps a value from having the type asked for, if anything does. Contracts are looked up
from the given scopes. -/
def mismatch? (s : Store) (env : Env) : Ty → Value → Option Mismatch
  | .primitive .dynamic, _ => none
  | .aliased name target, v =>
    (mismatch? s env target v).map fun _ => .structural (s.typeOf v) (.aliased name target)
  | .union members, v =>
    if anyAccepts s env members v then none else some (.structural (s.typeOf v) (.union members))
  | .struct name params members, .object a =>
    let type := Ty.struct name params members
    match (s.object a).tag with
    | some tag =>
      if name.isEmpty then s.compare type (.object a)
      else if tag == name then none
      else some (.nominal tag type)
    | none => s.compare type (.object a)
  | .contract name members, .object a =>
    match (s.object a).tag with
    | some tag =>
      if s.fulfills env tag name then none
      else some (.structural (s.typeOf (.object a)) (.contract name members))
    | none => some (.structural (s.typeOf (.object a)) (.contract name members))
  | .generic name args, .object a => s.compareGeneric env name args (s.object a) (.object a)
  | .array element, .array a =>
    if (s.array a).toList.all fun v => (mismatch? s env element v).isNone then none
    else some (.structural (s.typeOf (.array a)) (.array element))
  | type, v => s.compare type v

/-- Some type of the list accepts the value. -/
def anyAccepts (s : Store) (env : Env) : List Ty → Value → Bool
  | [], _ => false
  | type :: rest, v => (mismatch? s env type v).isNone || anyAccepts s env rest v

end

/-- The value has the type asked for. -/
def accepts (s : Store) (env : Env) (type : Ty) (v : Value) : Bool :=
  (s.mismatch? env type v).isNone

end Store

end Sable
