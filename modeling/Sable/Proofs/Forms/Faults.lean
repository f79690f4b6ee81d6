import Sable.Eval.Templates
import Sable.Eval.Objects
import Sable.Proofs.Forms.Syntax

/-!
# The faults of well-formed code

`Fault.isDefensive` picks out the faults that only ill-formed syntax gives: `notATarget`, `notAName` and
`notPrimitive`. A result is `Regular` if it is no such fault. All that the evaluator asks of a store is
regular, and what it asks about annotations is so for annotations with `TypeExpr.Proper`.
-/

namespace Sable

def Fault.isDefensive : Fault → Bool
  | notATarget _ | notAName _ | notPrimitive _ => true
  | _ => false

/-- No fault that only ill-formed syntax gives. -/
def Regular {α : Type} (x : Except Fault α) : Prop :=
  ∀ fault, x = .error fault → fault.isDefensive = false

namespace Regular

variable {α β : Type} {x : Except Fault α}

theorem ok (a : α) : Regular (.ok a) :=
  fun _ h => nomatch h

theorem error {fault : Fault} (h : fault.isDefensive = false) :
    Regular (.error fault : Except Fault α) := by
  rintro _ ⟨⟩
  exact h

theorem bind {f : α → Except Fault β} (hx : Regular x) (hf : ∀ a, Regular (f a)) :
    Regular (x >>= f) := by
  cases x with
  | ok a => exact hf a
  | error fault => exact .error (hx fault rfl)

theorem ite {p : Prop} [Decidable p] {y : Except Fault α} (hx : Regular x) (hy : Regular y) :
    Regular (if p then x else y) := by
  by_cases h : p
  · rwa [if_pos h]
  · rwa [if_neg h]

theorem map (f : α → β) (hx : Regular x) : Regular (x.map f) :=
  hx.bind fun a => .ok (f a)

theorem forM {xs : List α} {f : α → Except Fault PUnit} (h : ∀ a ∈ xs, Regular (f a)) :
    Regular (xs.forM f) := by
  induction xs with
  | nil => exact .ok _
  | cons a xs ih =>
    exact (h a List.mem_cons_self).bind fun _ => ih fun b hb => h b (List.mem_cons_of_mem _ hb)

theorem mapM {xs : List α} {f : α → Except Fault β} (h : ∀ a ∈ xs, Regular (f a)) :
    Regular (xs.mapM f) := by
  induction xs with
  | nil => exact .ok _
  | cons a xs ih =>
    rw [List.mapM_cons]
    have hrest := ih fun b hb => h b (List.mem_cons_of_mem _ hb)
    exact (h a List.mem_cons_self).bind fun _ => hrest.bind fun _ => .ok _

end Regular

namespace Store

variable (s : Store) (env : Env)

/-! ### Names and values -/

theorem regular_lookup (name : String) : Regular (s.lookup env name) := by
  unfold lookup
  cases s.binding? env name with
  | some b => exact .ok _
  | none => exact .error rfl

theorem regular_mismatch (m : Mismatch) (name : String) : (m.fault name).isDefensive = false := by
  cases m <;> rfl

theorem regular_declaration (name : String) (v : Value) (modifier : Modifier) (type : Option Ty) :
    Regular (s.declaration env name v modifier type) := by
  refine .ite (.error rfl) ?_
  cases type with
  | none => exact .ok _
  | some type =>
    refine .ite (.ok _) ?_
    cases s.mismatch? env type v with
    | some m => exact .error (regular_mismatch m name)
    | none => exact .ok _

theorem regular_checkMutable (name : String) : Regular (s.checkMutable env name) := by
  unfold checkMutable
  cases s.binding? env name with
  | none => exact .error rfl
  | some b =>
    obtain ⟨v, modifier, type⟩ := b
    cases modifier with
    | constant | final => exact .error rfl
    | mutable => exact .ok _

theorem regular_assignment (name : String) (v : Value) : Regular (s.assignment env name v) := by
  refine (s.regular_checkMutable env name).bind fun _ => ?_
  cases s.owner? env name with
  | none => exact .error rfl
  | some address =>
    cases s.binding? env name with
    | none => exact .error rfl
    | some b =>
      obtain ⟨old, modifier, type⟩ := b
      cases type with
      | none => exact .ok _
      | some type =>
        dsimp only
        cases s.mismatch? env type v with
        | some m => exact .error (regular_mismatch m name)
        | none => exact .ok _

theorem regular_checkTypeName (name : String) : Regular (s.checkTypeName env name) :=
  .ite (.error rfl) (.ok _)

theorem regular_checkField (o : Obj) (field : String) (v : Value) :
    Regular (s.checkField env o field v) := by
  unfold checkField
  cases o.tag with
  | none => exact .ok _
  | some tag =>
    dsimp only
    cases s.structMembers? env tag with
    | none => exact .ok _
    | some declared =>
      dsimp only
      cases Member.find? declared.2 field with
      | none => exact .error rfl
      | some member => exact .ite (.ok _) (.error rfl)

theorem regular_contractMembers (name : String) : Regular (s.contractMembers env name) := by
  unfold contractMembers
  cases (s.type? env name).map Ty.unaliased with
  | none => exact .error rfl
  | some type =>
    cases type with
    | contract => exact .ok _
    | _ => exact .error rfl

theorem regular_structTag (name : String) : Regular (s.structTag env name) := by
  unfold structTag
  cases (s.type? env name).map Ty.unaliased with
  | none => exact .error rfl
  | some type =>
    cases type with
    | struct => exact .ok _
    | _ => exact .error rfl

theorem regular_checkTypeArgs (name : String) (params : List Bound) (args : List Ty) :
    Regular (checkTypeArgs name params args) := by
  refine .ite (.error rfl) (.forM fun (param, arg) _ => ?_)
  dsimp only
  cases param.bound with
  | none => exact .ok _
  | some bound => exact .ite (.ok _) (.error rfl)

/-! ### Annotations -/

variable {env} {subst : Subst}

theorem regular_evalTypes {types : List TypeExpr} (h : ∀ t ∈ types, Regular (s.evalType env subst t)) :
    Regular (s.evalTypes env subst types) := by
  induction types with
  | nil => exact .ok _
  | cons t rest ih =>
    have hrest := ih fun u hu => h u (List.mem_cons_of_mem _ hu)
    exact (h t List.mem_cons_self).bind fun _ => hrest.bind fun _ => .ok _

theorem regular_evalResult {type : Option TypeExpr} (h : ∀ t ∈ type, Regular (s.evalType env subst t)) :
    Regular (s.evalResult env subst type) := by
  cases type with
  | none => exact .ok _
  | some t => exact (h t rfl).bind fun _ => .ok _

/-- A well-formed annotation is evaluated without a defensive fault, since its words are among the
five. -/
theorem regular_evalType {e : TypeExpr} (h : e.Proper) : Regular (s.evalType env subst e) := by
  induction h with
  | word hsome =>
    obtain ⟨type, htype⟩ := Option.isSome_iff_exists.1 hsome
    rw [evalType, htype]
    exact .ok _
  | named name =>
    rw [evalType]
    cases (subst.lookup name.text).orElse fun _ => s.type? env name.text with
    | some type => exact .ok _
    | none => exact .error rfl
  | @generic name _ _ _ ih =>
    rw [evalType]
    cases s.type? env name.text with
    | none => exact .error rfl
    | some declared =>
      dsimp only
      cases declared.unaliased with
      | struct base params _ =>
        exact (s.regular_evalTypes ih).bind fun _ =>
          (regular_checkTypeArgs base params _).bind fun _ => .ok _
      | _ => exact .error rfl
  | union _ _ ih => exact (s.regular_evalTypes ih).bind fun _ => .ok _
  | array _ ih => exact ih.bind fun _ => .ok _
  | function _ _ ihp ihr =>
    exact (s.regular_evalTypes ihp).bind fun _ => (s.regular_evalResult ihr).bind fun _ => .ok _

theorem regular_evalTypeD {type : Option TypeExpr} (h : ∀ t ∈ type, t.Proper) :
    Regular (s.evalTypeD env subst type) := by
  cases type with
  | none => exact .ok _
  | some t => exact s.regular_evalType (h t rfl)

theorem regular_evalTypesD {types : List (Option TypeExpr)} (h : ∀ t ∈ types.filterMap id, t.Proper) :
    Regular (s.evalTypesD env subst types) := by
  induction types with
  | nil => exact .ok _
  | cons type rest ih =>
    have htype : ∀ t ∈ type, t.Proper := fun t ht =>
      h t (List.mem_filterMap.2 ⟨type, List.mem_cons_self, ht⟩)
    have hrest := ih fun t ht => h t <| by
      obtain ⟨u, hu, hut⟩ := List.mem_filterMap.1 ht
      exact List.mem_filterMap.2 ⟨u, List.mem_cons_of_mem _ hu, hut⟩
    exact (s.regular_evalTypeD htype).bind fun _ => hrest.bind fun _ => .ok _

theorem regular_evalFields {fields : List FieldDecl} (h : ∀ f ∈ fields, f.type.Proper) :
    Regular (s.evalFields env subst fields) := by
  induction fields with
  | nil => exact .ok _
  | cons f rest ih =>
    have hfield : Regular (s.evalField env subst f) := by
      obtain ⟨name, type, optional⟩ := f
      have htype : type.Proper := h _ List.mem_cons_self
      exact (s.regular_evalType htype).bind fun _ => .ok _
    have hrest := ih fun g hg => h g (List.mem_cons_of_mem _ hg)
    exact hfield.bind fun _ => hrest.bind fun _ => .ok _

theorem regular_evalRequirement {r : Requirement} (h : ∀ t ∈ r.annotations, t.Proper) :
    Regular (s.evalRequirement env subst r) := by
  cases r with
  | method name params result =>
    obtain ⟨hparams, hresult⟩ := List.forall_mem_append.1 h
    refine (s.regular_evalTypesD hparams).bind fun _ => Regular.bind ?_ fun _ => .ok _
    exact s.regular_evalTypeD fun t ht => hresult t (Option.mem_toList.2 ht)
  | getter name result =>
    exact (s.regular_evalType (h result List.mem_cons_self)).bind fun _ => .ok _

theorem regular_evalRequirements {members : List Requirement}
    (h : ∀ r ∈ members, ∀ t ∈ r.annotations, t.Proper) :
    Regular (s.evalRequirements env subst members) := by
  induction members with
  | nil => exact .ok _
  | cons r rest ih =>
    have hrest := ih fun r' hr => h r' (List.mem_cons_of_mem _ hr)
    exact (s.regular_evalRequirement (h r List.mem_cons_self)).bind fun _ => hrest.bind fun _ => .ok _

theorem regular_evalTypeParams {params : List TypeParam} (h : ∀ t ∈ TypeParam.bounds params, t.Proper) :
    Regular (s.evalTypeParams env params subst) := by
  induction params generalizing subst with
  | nil => exact .ok _
  | cons p rest ih =>
    obtain ⟨hbound, hrest⟩ := TypeParam.forall_bounds_cons.1 h
    exact (s.regular_evalResult fun t ht => s.regular_evalType (hbound t ht)).bind fun _ =>
      (ih hrest).bind fun _ => .ok _

/-- The annotations of what is given for a member are evaluated, and no others. -/
theorem regular_checkMember (contract target : String) {methods : List Function}
    {getters : List Getter} {expected : Signature}
    (h : ∀ t ∈ givenAnnotations methods getters expected.name, t.Proper) :
    Regular (s.checkMember env contract target methods getters expected) := by
  have hgiven : Regular (s.givenSignature env methods getters expected.name) := by
    unfold givenSignature
    unfold givenAnnotations at h
    cases hm : methods.find? (·.name.text == expected.name) with
    | some f =>
      rw [hm] at h
      obtain ⟨hhead, hresult⟩ := List.forall_mem_append.1 h
      obtain ⟨hbounds, hparams⟩ := List.forall_mem_append.1 hhead
      refine Regular.bind ?_ fun _ => .ok _
      refine (s.regular_evalTypeParams hbounds).bind fun x => ?_
      refine Regular.bind (.mapM fun p hp => s.regular_evalTypeD fun t ht => ?_) fun _ => ?_
      · exact hparams t (List.mem_filterMap.2 ⟨p, hp, ht⟩)
      · exact (s.regular_evalTypeD fun t ht => hresult t (Option.mem_toList.2 ht)).bind fun _ => .ok _
    | none =>
      rw [hm] at h
      cases hg : getters.find? (·.name.text == expected.name) with
      | none => exact .ok _
      | some g =>
        rw [hg] at h
        exact (s.regular_evalType (h g.result List.mem_cons_self)).bind fun _ => .ok _
  refine hgiven.bind fun x => ?_
  cases x with
  | none => exact .error rfl
  | some given =>
    exact .ite (.ok _) (.error rfl)

/-- The definition of a type, which is not evaluated as an annotation. -/
theorem regular_evalTypeDef {name : String} {params : List TypeParam} {definition : TypeExpr}
    (h : ∀ t ∈ TypeParam.bounds params ++ definition.annotations, t.Proper) :
    Regular (s.evalTypeDef env name params definition) := by
  obtain ⟨hbounds, hannotations⟩ := List.forall_mem_append.1 h
  have hparams : Regular (s.evalTypeParams env params []) := s.regular_evalTypeParams hbounds
  cases definition with
  | struct fields span =>
    refine hparams.bind fun _ => Regular.bind ?_ fun _ => .ok _
    exact regular_evalFields _ fun f hf => hannotations f.type (List.mem_map_of_mem hf)
  | contract members span =>
    refine hparams.bind fun _ => Regular.bind ?_ fun _ => .ok _
    exact regular_evalRequirements _ fun r hr t ht => hannotations t (List.mem_flatMap.2 ⟨r, hr, ht⟩)
  | aliased target span =>
    refine hparams.bind fun _ => (s.regular_evalType (hannotations target List.mem_cons_self)).bind
      fun type => ?_
    cases type with
    | aliased => exact .error rfl
    | _ => exact .ok _
  | _ =>
    exact hparams.bind fun _ => s.regular_evalType (hannotations _ List.mem_cons_self)

end Store

/-! ### Texts and names -/

theorem Template.regular_fill (holes : List (List Char × List Char)) (names : List String)
    {value : String → Except Fault String} (h : ∀ name, Regular (value name)) (cs : List Char) :
    Regular (fill holes names value cs) := by
  fun_induction fill holes names value cs with
  | case1 => exact .ok _
  | case2 _ _ _ _ _ ih => exact ih.bind fun _ => .ok _
  | case3 _ _ _ name _ ih => exact (h name).bind fun _ => ih.bind fun _ => .ok _
  | case4 _ _ _ _ _ ih => exact ih.bind fun _ => .ok _

/-- What stands behind a dot is a name. -/
theorem Expr.regular_propertyName {object property : Expr} {span : Span}
    (h : (Expr.member object false property span).wellMade = true) : Regular property.propertyName := by
  cases property with
  | var name => exact .ok _
  | _ => cases h

end Sable
