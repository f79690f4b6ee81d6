import Sable.Ty

/-!
# Replacing type parameters

A substitution maps names of type parameters to types. It reaches into unions, arrays, functions,
arguments of generic types and the members of structs, and leaves aliases, contracts and the bounds
of parameters alone.
-/

namespace Sable

/-- Types for parameters, the first entry for a name counting. -/
abbrev Subst := List (String × Ty)

namespace Ty

mutual

def subst (s : Subst) : Ty → Ty
  | param name bound => (s.lookup name).getD (param name bound)
  | union members => union (substs s members)
  | array element => array (subst s element)
  | generic name args => generic name (substs s args)
  | function params result => function (substs s params) (substOption s result)
  | struct name params members => struct name params (substMembers s members)
  | primitive type => primitive type
  | aliased name target => aliased name target
  | contract name members => contract name members

def substs (s : Subst) : List Ty → List Ty
  | [] => []
  | type :: rest => subst s type :: substs s rest

def substOption (s : Subst) : Option Ty → Option Ty
  | none => none
  | some type => some (subst s type)

def substMembers (s : Subst) : List (MemberOf Ty) → List (MemberOf Ty)
  | [] => []
  | ⟨name, type, optional⟩ :: rest => ⟨name, subst s type, optional⟩ :: substMembers s rest

end

end Ty

/-- The parameters of a generic struct mapped to its arguments. Of two parameters with one name the
later one counts. -/
def Subst.ofArgs (params : List Bound) (args : List Ty) : Subst :=
  (params.map (·.name) |>.zip args).reverse

end Sable
