import Sable.Eval
import Sable.Proofs.Contracts.Registered
import Sable.Proofs.Loops.Twins

/-!
# Readings of a store with an idle scope

In twin stores every lookup gives `Answers` that correspond, since the idle scope holds nothing. Texts
of values, types of values and `Store.accepts` are the same.
-/

namespace Sable

variable {n k j : Nat}

/-! ### Searches along a path -/

namespace Threads

variable {path path' : List Nat} {α β : Type}

theorem findSome? {R : α → β → Prop} {f : Nat → Option α} {f' : Nat → Option β}
    (h : Threads n k path path') (hidle : f' n = none)
    (hf : ∀ a, Option.Rel R (f a) (f' (moved n a))) :
    Option.Rel R (path.findSome? f) (path'.findSome? f') := by
  induction h with
  | nil => exact .none
  | idle _ ih =>
    rw [List.findSome?_cons, hidle]
    exact ih
  | @cons a _ _ _ _ ih =>
    have ha := hf a
    rw [List.findSome?_cons, List.findSome?_cons]
    generalize f a = x at ha ⊢
    generalize f' (moved n a) = y at ha ⊢
    cases ha with
    | some ha => exact .some ha
    | none => exact ih

theorem findSome?_eq {f f' : Nat → Option α} (h : Threads n k path path') (hidle : f' n = none)
    (hf : ∀ a, f a = f' (moved n a)) : path.findSome? f = path'.findSome? f' := by
  induction h with
  | nil => rfl
  | idle _ ih => rw [List.findSome?_cons, hidle, ih]
  | cons _ _ ih => rw [List.findSome?_cons, List.findSome?_cons, hf, ih]

theorem find?_eq {p p' : Nat → Bool} (h : Threads n k path path') (hidle : p' n = false)
    (hp : ∀ a, p a = p' (moved n a)) : path'.find? p' = (path.find? p).map (moved n) := by
  induction h with
  | nil => rfl
  | idle _ ih => rw [List.find?_cons, hidle, ih]
  | @cons a _ _ _ _ ih =>
    rw [List.find?_cons, List.find?_cons, ← hp a, ih]
    cases p a <;> rfl

theorem any_eq {p p' : Nat → Bool} (h : Threads n k path path') (hidle : p' n = false)
    (hp : ∀ a, p a = p' (moved n a)) : path.any p = path'.any p' := by
  induction h with
  | nil => rfl
  | idle _ ih => rw [List.any_cons, hidle, ih, Bool.false_or]
  | cons _ _ ih => rw [List.any_cons, List.any_cons, hp, ih]

end Threads

/-- Answers that correspond, or the same fault. -/
inductive Answers {α β : Type} (R : α → β → Prop) : Except Fault α → Except Fault β → Prop
  | ok {a : α} {b : β} (h : R a b) : Answers R (.ok a) (.ok b)
  | error (fault : Fault) : Answers R (.error fault) (.error fault)

theorem isSome_eq_of_rel {α β : Type} {R : α → β → Prop} {x : Option α} {y : Option β}
    (h : Option.Rel R x y) : x.isSome = y.isSome := by
  cases h <;> rfl

theorem map_eq_of_forall₂ {α β γ : Type} {R : α → β → Prop} {f : α → γ} {g : β → γ} {l : List α}
    {l' : List β} (h : List.Forall₂ R l l') (hf : ∀ a b, R a b → f a = g b) : l.map f = l'.map g := by
  induction h with
  | nil => rfl
  | cons hhead _ ih => rw [List.map_cons, List.map_cons, hf _ _ hhead, ih]

namespace Value.Twin

variable {v v' : Value}

theorem kind_eq (h : v.Twin n k v') : v.kind = v'.kind := by
  cases h <;> rfl

theorem truthy_eq (h : v.Twin n k v') : v.truthy = v'.truthy := by
  cases h <;> rfl

theorem isNull_eq (h : v.Twin n k v') : v.isNull = v'.isNull := by
  cases h <;> rfl

theorem null : Value.null.Twin n k .null :=
  .same fun _ => nofun

theorem nothing : Value.nothing.Twin n k .nothing :=
  .same fun _ => nofun

end Value.Twin

namespace Store.Twin

variable {s s' : Store} {env env' : Env} {v v' : Value}

/-! ### Names -/

section

variable (h : s.Twin n s') (he : env.Sees n k env')

include h he

theorem binding? (name : String) :
    Option.Rel (Binding.Twin n s.scopes.size) (s.binding? env name) (s'.binding? env' name) :=
  Threads.findSome? he (by rw [h.idle]; rfl) fun a => (h.scope a).vars.lookup name

theorem owner?_eq (name : String) : s'.owner? env' name = (s.owner? env name).map (moved n) :=
  Threads.find?_eq he (by rw [h.idle]; rfl) fun a =>
    isSome_eq_of_rel ((h.scope a).vars.lookup name)

theorem type?_eq (name : String) : s.type? env name = s'.type? env' name :=
  Threads.findSome?_eq he (by rw [h.idle]; rfl) fun a => by rw [(h.scope a).types]

theorem method? (struct name : String) :
    Option.Rel (Value.Twin n s.scopes.size) (s.method? env struct name)
      (s'.method? env' struct name) :=
  Threads.findSome? he (by rw [h.idle]; rfl) fun a => (h.scope a).methods.lookup (struct, name)

theorem getter? (struct name : String) :
    Option.Rel (Value.Twin n s.scopes.size) (s.getter? env struct name)
      (s'.getter? env' struct name) :=
  Threads.findSome? he (by rw [h.idle]; rfl) fun a => (h.scope a).getters.lookup (struct, name)

theorem fulfills_eq (struct contract : String) :
    s.fulfills env struct contract = s'.fulfills env' struct contract :=
  Threads.any_eq he (by rw [h.idle]; rfl) fun a => by rw [(h.scope a).fulfillments]

theorem lookup (name : String) :
    Answers (Value.Twin n s.scopes.size) (s.lookup env name) (s'.lookup env' name) := by
  have hb := h.binding? he name
  unfold Store.lookup
  generalize s.binding? env name = x at hb ⊢
  generalize s'.binding? env' name = y at hb ⊢
  cases hb with
  | some hb => exact .ok hb.value
  | none => exact .error _

theorem checkMutable_eq (name : String) : s.checkMutable env name = s'.checkMutable env' name := by
  have hb := h.binding? he name
  unfold Store.checkMutable
  generalize s.binding? env name = x at hb ⊢
  generalize s'.binding? env' name = y at hb ⊢
  cases hb with
  | some hb => simp only [hb.modifier]
  | none => rfl

end

/-! ### Values -/

section

variable (h : s.Twin n s')

include h

theorem depth_eq : s.depth = s'.depth := by
  rw [Store.depth, Store.depth, h.objects, h.arrays]

theorem typeWithin_eq (hv : v.Twin n k v') (depth : Nat) (seen : List Container) :
    s.typeWithin depth seen v = s'.typeWithin depth seen v' := by
  induction depth generalizing seen k v v' with
  | zero => rfl
  | succ depth ih =>
    cases hv with
    | function _ => rfl
    | same hne =>
      cases v with
      | object a =>
        simp only [Store.typeWithin, (h.object a).tag, (h.object a).typeArgs]
        split
        · rfl
        · split
          · rfl
          · refine congrArg (Ty.struct _ []) ((h.object a).properties.map_eq fun name v v' hp => ?_)
            exact congrArg (MemberOf.mk name · false) (ih hp _)
      | array a =>
        have hitems := map_eq_of_forall₂ (h.array a) fun v v' hv => ih hv (.array a :: seen)
        simp only [Store.typeWithin, hitems]
      | function f => exact absurd rfl (hne f)
      | _ => rfl

theorem typeOf_eq (hv : v.Twin n k v') : s.typeOf v = s'.typeOf v' := by
  rw [typeOf, typeOf, h.depth_eq, h.typeWithin_eq hv]

theorem renderWithin_eq (hv : v.Twin n k v') (depth : Nat) (seen : List Container) :
    s.renderWithin depth seen v = s'.renderWithin depth seen v' := by
  induction depth generalizing seen k v v' with
  | zero => rfl
  | succ depth ih =>
    cases hv with
    | function _ => rfl
    | same hne =>
      cases v with
      | object a =>
        have hproperties := (h.object a).properties
        -- an object without properties is shown in its own way
        have hempty : (s.object a).properties.isEmpty = (s'.object a).properties.isEmpty := by
          rw [Bool.eq_iff_iff, List.isEmpty_iff_length_eq_zero, List.isEmpty_iff_length_eq_zero,
            List.Forall₂.length_eq hproperties]
        simp only [Store.renderWithin, (h.object a).tag, hempty]
        split
        · rfl
        · split
          · rfl
          · refine congrArg (fun shown => _ ++ ", ".intercalate shown ++ _)
              (hproperties.map_eq fun name v v' hp => ?_)
            exact congrArg (name ++ ": " ++ ·) (ih hp _)
      | array a =>
        have hitems := map_eq_of_forall₂ (h.array a) fun v v' hv => ih hv (.array a :: seen)
        simp only [Store.renderWithin, hitems]
      | function f => exact absurd rfl (hne f)
      | _ => rfl

theorem render_eq (hv : v.Twin n k v') : s.render v = s'.render v' := by
  have hwithin := h.renderWithin_eq hv s.depth []
  rw [h.depth_eq] at hwithin
  cases hv with
  | function _ => exact hwithin
  | same _ =>
    unfold render
    split
    · rfl
    · rw [h.depth_eq, hwithin]

/-! ### Values against types -/

theorem compare_eq (type : Ty) (hv : v.Twin n k v') : s.compare type v = s'.compare type v' := by
  rw [Store.compare, Store.compare, h.typeOf_eq hv]

theorem compareGeneric_eq (he : env.Sees n k env') (name : String) (args : List Ty) {o o' : Obj}
    (ho : o.Twin n j o') {i : Nat} (hv : v.Twin n i v') :
    s.compareGeneric env name args o v = s'.compareGeneric env' name args o' v' := by
  simp only [Store.compareGeneric, ho.tag, ho.typeArgs, h.type?_eq he, h.compare_eq _ hv,
    h.typeOf_eq hv]

end

mutual

theorem mismatch?_eq (h : s.Twin n s') (he : env.Sees n k env') :
    ∀ (type : Ty) {j : Nat} {v v' : Value}, v.Twin n j v' →
      s.mismatch? env type v = s'.mismatch? env' type v'
  | .primitive p, _, _, _, hv => by
    cases p with
    | dynamic => simp only [mismatch?]
    | _ => simp only [mismatch?, h.compare_eq _ hv]
  | .aliased name target, _, _, _, hv => by
    simp only [mismatch?, mismatch?_eq h he target hv, h.typeOf_eq hv]
  | .union members, _, _, _, hv => by
    simp only [mismatch?, anyAccepts_eq h he members hv, h.typeOf_eq hv]
  | .struct .., _, v, v', hv => by
    have hcompare (type : Ty) := h.compare_eq type hv
    cases hv with
    | function _ => simp only [mismatch?, hcompare]
    | same _ =>
      cases v with
      | object a => simp only [mismatch?, (h.object a).tag, hcompare]
      | _ => simp only [mismatch?, hcompare]
  | .contract .., _, v, v', hv => by
    have hcompare (type : Ty) := h.compare_eq type hv
    have htype := h.typeOf_eq hv
    cases hv with
    | function _ => simp only [mismatch?, hcompare]
    | same _ =>
      cases v with
      | object a => simp only [mismatch?, (h.object a).tag, h.fulfills_eq he, htype]
      | _ => simp only [mismatch?, hcompare]
  | .generic name args, _, v, v', hv => by
    have hcompare (type : Ty) := h.compare_eq type hv
    have hgeneric (a : Nat) := h.compareGeneric_eq he name args (h.object a) hv
    cases hv with
    | function _ => simp only [mismatch?, hcompare]
    | same _ =>
      cases v with
      | object a => simp only [mismatch?, hgeneric]
      | _ => simp only [mismatch?, hcompare]
  | .array element, _, v, v', hv => by
    have hcompare (type : Ty) := h.compare_eq type hv
    have htype := h.typeOf_eq hv
    have hitems (a : Nat) := map_eq_of_forall₂ (h.array a) fun v v' hv =>
      congrArg Option.isNone (mismatch?_eq h he element hv)
    cases hv with
    | function _ => simp only [mismatch?, hcompare]
    | same _ =>
      cases v with
      | array a =>
        have hall := congrArg (List.all · id) (hitems a)
        simp only [List.all_map] at hall
        simp only [mismatch?, htype]
        exact if_congr (Bool.eq_iff_iff.1 hall) rfl rfl
      | _ => simp only [mismatch?, hcompare]
  | .param .., _, _, _, hv => by simp only [mismatch?, h.compare_eq _ hv]
  | .function .., _, _, _, hv => by simp only [mismatch?, h.compare_eq _ hv]

theorem anyAccepts_eq (h : s.Twin n s') (he : env.Sees n k env') :
    ∀ (types : List Ty) {j : Nat} {v v' : Value}, v.Twin n j v' →
      s.anyAccepts env types v = s'.anyAccepts env' types v'
  | [], _, _, _, _ => rfl
  | type :: types, _, _, _, hv => by
    simp only [anyAccepts, mismatch?_eq h he type hv, anyAccepts_eq h he types hv]

end

section

variable (h : s.Twin n s') (he : env.Sees n k env')

include h he

theorem accepts_eq (type : Ty) (hv : v.Twin n j v') : s.accepts env type v = s'.accepts env' type v' := by
  rw [accepts, accepts, h.mismatch?_eq he type hv]

/-! ### Annotations -/

theorem evalType_eq (subst : Subst) (e : TypeExpr) :
    s.evalType env subst e = s'.evalType env' subst e :=
  evalType_congr (h.type?_eq he) subst e

theorem evalTypes_eq (subst : Subst) (es : List TypeExpr) :
    s.evalTypes env subst es = s'.evalTypes env' subst es :=
  evalTypes_congr (h.type?_eq he) subst es

theorem evalResult_eq (subst : Subst) (e : Option TypeExpr) :
    s.evalResult env subst e = s'.evalResult env' subst e :=
  evalResult_congr (h.type?_eq he) subst e

theorem evalTypeParams_eq (params : List TypeParam) (subst : Subst) :
    s.evalTypeParams env params subst = s'.evalTypeParams env' params subst :=
  evalTypeParams_congr (h.type?_eq he) params subst

theorem evalFields_eq (subst : Subst) (fields : List FieldDecl) :
    s.evalFields env subst fields = s'.evalFields env' subst fields :=
  evalFields_congr (h.type?_eq he) subst fields

/-- A struct aside, whose members are evaluated in a scope of their own. -/
theorem evalTypeDef_eq (name : String) (params : List TypeParam) {d : TypeExpr}
    (hd : ∀ fields span, d ≠ .struct fields span) :
    s.evalTypeDef env name params d = s'.evalTypeDef env' name params d := by
  cases d with
  | struct fields span => exact absurd rfl (hd fields span)
  | contract members span =>
    simp only [evalTypeDef, h.evalTypeParams_eq he, evalRequirements_congr (h.type?_eq he)]
  | _ => simp only [evalTypeDef, h.evalTypeParams_eq he, h.evalType_eq he]

/-! ### Structs and contracts -/

theorem structMembers?_eq (tag : String) : s.structMembers? env tag = s'.structMembers? env' tag := by
  rw [structMembers?, structMembers?, h.type?_eq he]

theorem checkField_eq {o o' : Obj} (ho : o.Twin n j o') (field : String) {i : Nat} (hv : v.Twin n i v') :
    s.checkField env o field v = s'.checkField env' o' field v' := by
  simp only [checkField, ho.tag, ho.typeArgs, h.structMembers?_eq he, h.accepts_eq he _ hv,
    h.typeOf_eq hv]

theorem contractMembers_eq (name : String) :
    s.contractMembers env name = s'.contractMembers env' name := by
  rw [contractMembers, contractMembers, h.type?_eq he]

theorem structTag_eq (name : String) : s.structTag env name = s'.structTag env' name := by
  rw [structTag, structTag, h.type?_eq he]

theorem checkMember_eq (contract target : String) (methods : List Function) (getters : List Getter)
    (expected : Signature) : s.checkMember env contract target methods getters expected =
      s'.checkMember env' contract target methods getters expected := by
  simp only [checkMember, givenSignature, methodSignature_congr (h.type?_eq he), h.evalType_eq he]

/-! ### Templates -/

theorem lookup_render_eq (name : String) :
    (s.lookup env name).map s.render = (s'.lookup env' name).map s'.render := by
  have hv := h.lookup he name
  generalize s.lookup env name = x at hv ⊢
  generalize s'.lookup env' name = y at hv ⊢
  cases hv with
  | ok hv => simp only [Except.map, h.render_eq hv]
  | error fault => simp only [Except.map]

/-! ### Bindings -/

/-- The binding of an assignment is the same, and it is made in the same scope. -/
theorem assignment (name : String) (hv : v.Twin n s.scopes.size v') :
    Answers (fun x x' => x'.1 = moved n x.1 ∧ x.2.Twin n s.scopes.size x'.2)
      (s.assignment env name v) (s'.assignment env' name v') := by
  have hb := h.binding? he name
  unfold Store.assignment
  rw [← h.checkMutable_eq he, h.owner?_eq he]
  generalize s.binding? env name = x at hb ⊢
  generalize s'.binding? env' name = y at hb ⊢
  cases s.checkMutable env name with
  | error fault => exact .error fault
  | ok =>
    cases s.owner? env name with
    | none => exact .error _
    | some address =>
      cases hb with
      | none => exact .error _
      | @some b b' hb =>
        obtain ⟨w, modifier, type⟩ := b
        obtain ⟨w', modifier', type'⟩ := b'
        obtain ⟨-, rfl, rfl⟩ : w.Twin n s.scopes.size w' ∧ modifier' = modifier ∧ type' = type :=
          ⟨hb.value, hb.modifier, hb.type⟩
        -- a variable without a type takes that of its first value other than null
        cases type' with
        | none =>
          refine .ok ⟨rfl, hv, rfl, ?_⟩
          rw [hv.isNull_eq, h.typeOf_eq hv]
        | some type =>
          have hmismatch := h.mismatch?_eq he type hv
          dsimp only [Bind.bind, Except.bind, Option.map]
          rw [hmismatch]
          cases s'.mismatch? env' type v' with
          | some m => exact .error _
          | none => exact .ok ⟨rfl, hv, rfl, rfl⟩

end

section

variable (h : s.Twin n s') (he : env.Twin n k env')

include h he

theorem declaration (name : String) (hv : v.Twin n s.scopes.size v') (modifier : Modifier)
    (type : Option Ty) :
    Answers (Binding.Twin n s.scopes.size) (s.declaration env name v modifier type)
      (s'.declaration env' name v' modifier type) := by
  have hdeclared := isSome_eq_of_rel ((h.scope env.here).vars.lookup name)
  unfold Store.declaration
  rw [he.here, ← hdeclared, ← hv.isNull_eq]
  split
  · exact .error _
  · cases type with
    | none =>
      refine .ok ⟨hv, rfl, ?_⟩
      rw [h.typeOf_eq hv]
    | some type =>
      dsimp only
      rw [← h.mismatch?_eq he.sees type hv]
      split
      · exact .ok ⟨hv, rfl, rfl⟩
      · cases s.mismatch? env type v with
        | some m => exact .error _
        | none => exact .ok ⟨hv, rfl, rfl⟩

theorem checkTypeName_eq (name : String) : s.checkTypeName env name = s'.checkTypeName env' name := by
  rw [checkTypeName, checkTypeName, he.here, (h.scope env.here).types]

end

end Store.Twin

theorem Builtin.typeName_eq {s s' : Store} {v v' : Value} (h : s.Twin n s') (hv : v.Twin n k v') :
    Builtin.typeName s v = Builtin.typeName s' v' := by
  have htype := h.typeOf_eq hv
  cases hv with
  | function _ => rfl
  | same _ =>
    cases v with
    | object a => simp only [Builtin.typeName, (h.object a).tag, htype]
    | builtin _ | function _ | type _ => rfl
    | _ => exact congrArg Ty.text htype

end Sable
