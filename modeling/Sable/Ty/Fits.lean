import Sable.Ty

/-!
# Which types fit which

A type fits another if its values may stand where the other is asked for. Structs are compared by
their members, functions by their parameters the other way round, and contracts by their names.
-/

namespace Sable.Ty

mutual

/-- Whether a value of the first type may stand where the second is asked for. -/
def fits (source target : Ty) : Bool :=
  source.isDynamic || target.isDynamic || matchesForm source target
termination_by (sizeOf source + sizeOf target, 1)

/-- The rule for types of which neither is dynamic. Unions come first, that of the source before
that of the target, then aliases. -/
def matchesForm : Ty → Ty → Bool
  | primitive a, primitive b => a == b
  | union members, target => allFit members target
  | source, union members => anyFits source members
  | aliased _ s, target => fits s target
  | source, aliased _ t => fits source t
  | array a, array b => fits a b
  | struct _ _ members, struct _ _ wanted => covers members wanted
  | generic a ss, generic b ts => a == b && pairsFit ss ts
  | source, param _ (some bound) => fits source bound
  | _, param _ none => true
  | param _ (some bound), target => fits bound target
  | function ps (some a), function qs (some b) => pairsFit qs ps && fits a b
  | function ps _, function qs _ => pairsFit qs ps
  | contract a _, contract b _ => a == b
  | _, _ => false
termination_by source target => (sizeOf source + sizeOf target, 0)

/-- Every type of the list fits. -/
def allFit : List Ty → Ty → Bool
  | [], _ => true
  | m :: ms, target => fits m target && allFit ms target
termination_by ms target => (sizeOf ms + sizeOf target, 0)

/-- Some type of the list is fitted. -/
def anyFits : Ty → List Ty → Bool
  | _, [] => false
  | source, m :: ms => fits source m || anyFits source ms
termination_by source ms => (sizeOf source + sizeOf ms, 0)

/-- As many types on both sides, each fitting its partner. -/
def pairsFit : List Ty → List Ty → Bool
  | [], [] => true
  | s :: ss, t :: ts => fits s t && pairsFit ss ts
  | _, _ => false
termination_by ss ts => (sizeOf ss + sizeOf ts, 0)

/-- Every wanted member is there with a type that fits, or may be missing. Further members do no
harm. -/
def covers (members : List (MemberOf Ty)) : List (MemberOf Ty) → Bool
  | [] => true
  | ⟨name, type, optional⟩ :: wanted =>
    (match _h : members.find? fun m => m.name == name with
      | some m => fits m.type type
      | none => optional) &&
      covers members wanted
termination_by wanted => (sizeOf members + sizeOf wanted, 0)
decreasing_by
  · have := List.sizeOf_lt_of_mem (List.mem_of_find?_eq_some _h)
    cases m
    apply Prod.Lex.left
    simp only [MemberOf.mk.sizeOf_spec, List.cons.sizeOf_spec] at this ⊢
    omega
  · apply Prod.Lex.left
    simp only [List.cons.sizeOf_spec]
    omega

end

mutual

/-- Whether one type fits another, with the pair of types that decides it: an alias is replaced by
what it stands for, and a union in the target by the first member that is fitted. -/
def settle (source target : Ty) : Bool × Ty × Ty :=
  if source.isDynamic || target.isDynamic then (true, source, target)
  else settleForm source target
termination_by (sizeOf source + sizeOf target, 1)

def settleForm : Ty → Ty → Bool × Ty × Ty
  | union members, target => (fits (union members) target, union members, target)
  | source, union members => (settleAny source members).getD (false, source, union members)
  | aliased _ s, target => settle s target
  | source, aliased _ t => settle source t
  | source, target => (fits source target, source, target)
termination_by source target => (sizeOf source + sizeOf target, 0)

/-- The outcome for the first type of the list that is fitted. -/
def settleAny : Ty → List Ty → Option (Bool × Ty × Ty)
  | _, [] => none
  | source, m :: ms =>
    if (settle source m).1 then some (settle source m) else settleAny source ms
termination_by source ms => (sizeOf source + sizeOf ms, 0)

end

end Sable.Ty
