import Sable.Proofs.Store.Scoping
import Sable.Proofs.Values.Assignments

/-!
# A value has its own type

`Store.Coherent`: no object in a value has two properties of one name, and its type arguments fit
themselves. Then the type that `Store.typeOf` finds accepts the value, also if the value has cycles, and
a variable can be assigned the value that it was declared with.
-/

namespace Sable

/-- The object has one property of each name, and its type arguments fit themselves. -/
structure Obj.Coherent (o : Obj) : Prop where
  distinct : (o.properties.map (·.1)).Nodup
  args : ∀ t ∈ o.typeArgs, t.fits t = true

namespace Store

variable {s : Store} {env : Env} {x : Value}

/-- All objects in the value are coherent. -/
def Coherent (s : Store) (x : Value) : Prop :=
  ∀ a, s.Within (.object a) x → (s.object a).Coherent

theorem Coherent.part {y : Value} (h : s.Coherent x) (hy : y ∈ s.parts x) : s.Coherent y :=
  fun a ha => h a (.part hy ha)

/-! ### The types of one value -/

theorem lookup_of_distinct {properties : List (String × Value)}
    (h : (properties.map (·.1)).Nodup) {p : String × Value} (hp : p ∈ properties) :
    properties.lookup p.1 = some p.2 := by
  induction properties with
  | nil => cases hp
  | cons q properties ih =>
    rw [List.map_cons, List.nodup_cons] at h
    rcases List.mem_cons.1 hp with rfl | hp
    · rw [List.lookup_cons, beq_self_eq_true]
    · have hne : p.1 ≠ q.1 := by
        rintro heq
        exact h.1 (heq ▸ List.mem_map_of_mem hp)
      rw [List.lookup_cons, beq_false_of_ne hne]
      exact ih h.2 hp

/-- Two ways to type the parts of a container, the first of which fits the second everywhere. -/
theorem shape_fits {f g : Value → Ty} {c : Container} (hc : s.Coherent c.value)
    (h : ∀ y ∈ s.parts c.value, (f y).fits (g y) = true) :
    (s.shape f c).fits (s.shape g c) = true := by
  cases c with
  | object a =>
    have hobject := hc a .self
    simp only [Container.value, parts] at h
    simp only [shape]
    cases hsealed : (s.object a).isSealed with
    | true =>
      rw [if_pos rfl, if_pos rfl, Ty.fits_eq rfl rfl, Ty.matchesForm, Ty.pairsFit_self hobject.args]
      simp
    | false =>
      simp only [hsealed, Bool.false_eq_true, if_false, List.forall_mem_map] at h ⊢
      rw [Ty.fits_eq rfl rfl, Ty.matchesForm, Ty.covers_iff, List.forall_mem_map]
      intro p hp
      rw [find?_members, lookup_of_distinct hobject.distinct hp]
      exact h p hp
  | array a =>
    -- the elements of one type for `f` may have several for `g`, and the other way round
    have helements : ∀ y ∈ (s.array a).toList, (f y).fits (g y) = true := h
    simp only [shape]
    rcases arrayType_cases ((s.array a).toList.map g) with ⟨-, hg⟩ | ⟨t, hmem, hg⟩ | ⟨us, hmem, hg⟩
    all_goals rw [hg, arrayType_fits, List.forall_mem_map]; intro y hy
    · exact Ty.fits_of_dynamic (.inr rfl)
    · rw [← (hmem (g y)).1 (List.mem_map_of_mem hy)]
      exact helements y hy
    · exact Ty.fits_union_of_mem ((hmem (g y)).1 (List.mem_map_of_mem hy)) _ (helements y hy)

theorem fits_leaf (hx : ∀ c : Container, x ≠ c.value) (d : Nat) (seen : List Container) :
    (s.typeWithin (d + 1) seen x).fits (s.typeWithin (d + 1) seen x) = true := by
  refine (Ty.Coherent.fits_core ?_).1
  cases x with
  | object a => exact absurd rfl (hx (.object a))
  | array a => exact absurd rfl (hx (.array a))
  | function f =>
    refine .function (fun p hp => ?_) nofun
    obtain ⟨_, -, rfl⟩ := List.mem_map.1 hp
    exact .primitive .dynamic
  | _ => exact .primitive _

/-- Wherever a value is met and however deep it is looked into, the types found for it fit one
another. -/
theorem Coherent.typeWithin_fits (h : s.Coherent x) (d d' : Nat) (seen seen' : List Container) :
    (s.typeWithin d seen x).fits (s.typeWithin d' seen' x) = true := by
  induction d generalizing x d' seen seen' with
  | zero => exact Ty.fits_of_dynamic (.inl rfl)
  | succ d ih =>
    cases d' with
    | zero => exact Ty.fits_of_dynamic (.inr rfl)
    | succ d' =>
      rcases x.container_or with ⟨c, rfl⟩ | hx
      · rw [typeWithin_container, typeWithin_container]
        split
        · exact Ty.fits_of_dynamic (.inl rfl)
        · split
          · exact Ty.fits_of_dynamic (.inr rfl)
          · exact shape_fits h fun y hy => ih (h.part hy) ..
      · have hsame : s.typeWithin (d' + 1) seen' x = s.typeWithin (d + 1) seen x :=
          typeWithin_leaf hx ..
        rw [hsame]
        exact fits_leaf hx d seen

/-! ### The check against them -/

theorem accepts_dynamic : s.accepts env .dynamic x = true := by
  simp [accepts, Ty.dynamic, mismatch?]

/-- An object is accepted for a shape of its own, by its struct or by its properties. -/
theorem accepts_shape {f : Value → Ty} {a : Nat}
    (h : (s.typeOf (.object a)).fits (s.shape f (.object a)) = true) :
    s.accepts env (s.shape f (.object a)) (.object a) = true := by
  simp only [shape] at h ⊢
  split at h <;> rename_i hsealed
  · obtain ⟨name, arg, args, htag, hargs⟩ := Obj.isSealed_iff.1 hsealed
    rw [if_pos hsealed, accepts_eq_verdict rfl (by rintro _ _ ⟨⟩)]
    simpa [verdict, head, hsealed, htag] using h
  · rw [if_neg hsealed, accepts_eq_verdict rfl (by rintro _ _ ⟨⟩)]
    cases htag : (s.object a).tag with
    | none => simpa [verdict, head, htag] using h
    | some name =>
      simp only [htag, Option.getD_some] at h
      simp only [verdict, head, htag, Option.getD_some]
      split
      · exact h
      · exact beq_self_eq_true name

/-- A value is accepted for each type that is found for it. -/
theorem Coherent.accepts_typeWithin (h : s.Coherent x) (d : Nat) (seen : List Container) :
    s.accepts env (s.typeWithin d seen x) x = true := by
  induction d generalizing x seen with
  | zero => exact accepts_dynamic
  | succ d ih =>
    have hfits : (s.typeOf x).fits (s.typeWithin (d + 1) seen x) = true := h.typeWithin_fits ..
    rcases x.container_or with ⟨c, rfl⟩ | hx
    · rw [typeWithin_container] at hfits ⊢
      split at hfits <;> rename_i hseen
      · rw [if_pos hseen]
        exact accepts_dynamic
      · rw [if_neg hseen]
        cases c with
        | object a => exact accepts_shape hfits
        | array a =>
          have helement (y : Value) (hy : y ∈ (s.array a).toList) :
              s.accepts env (s.typeWithin d (.array a :: seen) y) y = true :=
            ih (h.part (x := .array a) hy) _
          simp only [shape, Container.value]
          rcases arrayType_cases ((s.array a).toList.map (s.typeWithin d (.array a :: seen)))
            with ⟨-, hts⟩ | ⟨t, hmem, hts⟩ | ⟨us, hmem, hts⟩
          all_goals rw [hts, accepts_array]; intro y hy
          · exact accepts_dynamic
          · rw [← (hmem _).1 (List.mem_map_of_mem hy)]
            exact helement y hy
          · exact accepts_union.2 ⟨_, (hmem _).1 (List.mem_map_of_mem hy), helement y hy⟩
    -- apart from containers the check is the comparison of types
    · have hverdict : s.accepts env (s.typeWithin (d + 1) seen x) x =
          s.verdict env (s.typeWithin (d + 1) seen x) (s.typeOf x) (s.head x) := by
        refine accepts_eq_verdict ?_ fun _ a _ hxa => hx (.array a) hxa
        cases x <;> first | rfl | exact absurd rfl (hx (.object _)) | exact absurd rfl (hx (.array _))
      rw [hverdict]
      cases x with
      | object a => exact absurd rfl (hx (.object a))
      | _ => exact hfits

/-! ### Giving a variable its own value -/

theorem typeWithin_bind (a : Nat) (name : String) (b : Binding) (d : Nat) (seen : List Container)
    (x : Value) : (s.bind a name b).typeWithin d seen x = s.typeWithin d seen x := by
  induction d generalizing seen x with
  | zero => rfl
  | succ d ih =>
    rcases x.container_or with ⟨c, rfl⟩ | hx
    · rw [typeWithin_container, typeWithin_container, funext (ih (c :: seen))]
      cases c <;> rfl
    · exact typeWithin_leaf hx _ _ _ _

/-- A variable can be given what its type accepts. -/
theorem assignment_of_accepts {name : String} {a : Nat} {b : Binding} (ha : s.Resolves env name a)
    (hb : (s.scope a).vars.lookup name = some b) (hmutable : b.modifier = .mutable)
    (h : ∀ type ∈ b.type, s.accepts env type x = true) :
    ∃ b', s.assignment env name x = .ok (a, b') := by
  have hbinding : s.binding? env name = some b := ha.binding?.trans hb
  have hcheck : s.checkMutable env name = .ok () := by
    unfold checkMutable
    rw [hbinding]
    simp only [hmutable]
  unfold assignment
  rw [hcheck, owner?_eq_some.2 ha, hbinding]
  cases htype : b.type with
  | none => exact ⟨_, by simp only [htype]; rfl⟩
  | some type =>
    have hnone : s.mismatch? env type x = none := Option.isNone_iff_eq_none.1 (h type htype)
    exact ⟨_, by simp only [htype, hnone]; rfl⟩

end Store

section

variable {ω : Type} [Observer ω]

/-- A declaration without a type binds the name, and records the type of the value. -/
theorem Eval.of_varDecl {cfg : Config} {fuel : Nat} {env : Env} {modifier : Modifier} {name : Name}
    {e : Expr} {m m' : Machine} {w w' : ω} {flow : Flow}
    (h : Eval.stmt cfg fuel env (.varDecl ⟨modifier, name, none, some e⟩) m w = .done flow m' w') :
    ∃ (v : Value) (s : Store), flow = .normal v ∧
      m'.store = s.bind env.here name.text ⟨v, modifier, s.recorded none v⟩ := by
  cases fuel with
  | zero => cases h
  | succ fuel =>
    obtain ⟨v, m₁, w₁, hdecl, hend⟩ := Eval.of_bind h
    cases hend
    obtain ⟨v', m₂, w₂, -, hrest⟩ := Eval.of_bind hdecl
    obtain ⟨type, m₃, w₃, htype, hrest⟩ := Eval.of_bind hrest
    obtain ⟨hnone, rfl⟩ := Eval.of_resolve htype
    cases hnone
    obtain ⟨_, m₄, w₄, hdeclare, hend⟩ := Eval.of_bind hrest
    cases hend
    obtain ⟨b, m₅, w₅, hquery, hchange⟩ := Eval.of_bind hdeclare
    obtain ⟨hb, rfl, rfl⟩ := Eval.of_query hquery
    cases hchange
    exact ⟨v, _, rfl, by rw [← Store.declaration_recorded hb]⟩

theorem Eval.assign_var {cfg : Config} {fuel : Nat} {env : Env} {target source : Name} {v : Value}
    {a : Nat} {b : Binding} {m : Machine} {w : ω} (hread : m.store.lookup env source.text = .ok v)
    (hassign : m.store.assignment env target.text v = .ok (a, b)) :
    Eval.expr cfg (fuel + 2) env (.assign (.var target) (.var source)) m w =
      .done v { m with store := m.store.bind a target.text b }
        (Observer.see w ⟨.changed, { m with store := m.store.bind a target.text b }⟩) := by
  simp only [Eval.expr, Inner.exprRule, Inner.assign, Eval.assign, Bind.bind, Eval.bind, Eval.query,
    hread, hassign]
  rfl

/-- A value without two properties of one name in an object is accepted for its own type in all
scopes. So the variable that has just been declared with it can be given itself. -/
theorem Store.Coherent.own_type_accepted {m : Machine} {v : Value} (h : m.store.Coherent v) :
    (∀ env, m.store.accepts env (m.store.typeOf v) v = true) ∧
    ∀ (cfg : Config) (fuel : Nat) (env : Env) (name : Name) (e : Expr) (m₀ : Machine) (w₀ w : ω),
      env.here < m.store.scopes.size →
      Eval.stmt cfg fuel env (.varDecl ⟨.mutable, name, none, some e⟩) m₀ w₀ = .done (.normal v) m w →
      ∀ (fuel' : Nat) (target source : Name), target.text = name.text → source.text = name.text →
        ∃ m' w', Eval.expr cfg (fuel' + 2) env (.assign (.var target) (.var source)) m w =
          .done v m' w' := by
  refine ⟨fun env => h.accepts_typeWithin _ _, ?_⟩
  intro cfg fuel env name e m₀ w₀ w hscope hdecl fuel' target source htarget hsource
  obtain ⟨v', s, hflow, hstore⟩ := Eval.of_varDecl hdecl
  obtain rfl : v = v' := Flow.normal.inj hflow
  have hrebinds : s.Rebinds m.store env.here name.text ⟨v, .mutable, s.recorded none v⟩ := by
    rw [hstore]
    rw [hstore, Store.bind, Store.size_modifyScope] at hscope
    exact Store.rebinds_bind hscope
  have hbound : (m.store.scope env.here).vars.lookup name.text =
      some ⟨v, .mutable, s.recorded none v⟩ := by
    simp [hrebinds.vars]
  have hresolves : m.store.Resolves env name.text env.here :=
    ⟨[], env.above, rfl, by rw [hbound]; rfl, List.forall_mem_nil _⟩
  have hread : m.store.lookup env source.text = .ok v := by
    rw [hsource]
    exact hresolves.lookup hbound
  -- the type was recorded before the name was bound, and binding a name changes no type
  have hrecorded : ∀ type ∈ s.recorded none v, m.store.accepts env type v = true := by
    intro type htype
    unfold Store.recorded at htype
    split at htype
    · cases htype
    · obtain rfl : s.typeOf v = type := Option.some.inj htype
      have hsame : s.typeOf v = m.store.typeOf v := by
        rw [hstore]
        exact (Store.typeWithin_bind ..).symm
      rw [hsame]
      exact h.accepts_typeWithin _ _
  obtain ⟨b, hassign⟩ := Store.assignment_of_accepts hresolves hbound rfl hrecorded
  rw [← htarget] at hassign
  exact ⟨_, _, Eval.assign_var hread hassign⟩

end

/-! ### Values that contain themselves, and values that are refused -/

/-- A machine with an object that lies in itself and in an array that lies in itself, among texts,
functions, instances with type arguments and instances without. -/
def selfContaining : Machine where
  store :=
    { scopes := #[{ vars := [("r", ⟨.object 0, .final, none⟩)] }]
      objects := #[⟨none, [], [("self", .object 0), ("items", .array 0), ("show", .builtin .print)]⟩,
        ⟨some "Point", [], [("x", .text "a"), ("next", .object 0)]⟩,
        ⟨some "Box", [.union [.primitive .text, .array .dynamic]], [("v", .array 0)]⟩]
      arrays := #[#[.text "b", .object 1, .array 0, .object 2, .null, .array 1], #[]] }

theorem selfContaining_coherent (x : Value) : selfContaining.store.Coherent x := by
  have hempty : (default : Obj).Coherent := ⟨.nil, nofun⟩
  intro a _
  match a with
  | 0 => exact ⟨by decide, nofun⟩
  | 1 => exact ⟨by decide, nofun⟩
  | 2 =>
    refine ⟨by decide, List.forall_mem_singleton.2 (Ty.Coherent.fits_core ?_).1⟩
    refine .union (List.forall_mem_cons.2 ⟨.primitive _, List.forall_mem_singleton.2 ?_⟩)
    exact .array (.primitive _)
  | _ + 3 => exact hempty

/-- The machine after `var x = r`. -/
def afterVarX : Machine where
  store := selfContaining.store.bind 0 "x"
    ⟨.object 0, .mutable, some (selfContaining.store.typeOf (.object 0))⟩

/-- The variable `x` takes what `r` stands for, and then itself. -/
theorem selfContaining_accepted :
    Eval.stmt { file := "main" } 3 ⟨0, []⟩
      (.varDecl ⟨.mutable, ⟨"x", .nowhere⟩, none, some (.var ⟨"r", .nowhere⟩)⟩) selfContaining () =
      .done (.normal (.object 0)) afterVarX () ∧
    afterVarX.store.Coherent (.object 0) ∧
    (∀ env, afterVarX.store.accepts env (afterVarX.store.typeOf (.object 0)) (.object 0) = true) ∧
    ∃ m, Eval.expr { file := "main" } 2 ⟨0, []⟩
      (.assign (.var ⟨"x", .nowhere⟩) (.var ⟨"x", .nowhere⟩)) afterVarX () =
      .done (.object 0) m () := by
  have hcoherent : afterVarX.store.Coherent (.object 0) :=
    fun a _ => selfContaining_coherent (.object a) a .self
  obtain ⟨haccepts, hassign⟩ := hcoherent.own_type_accepted (ω := Unit)
  obtain ⟨m, w, hdone⟩ := hassign { file := "main" } 3 ⟨0, []⟩ ⟨"x", .nowhere⟩
    (.var ⟨"r", .nowhere⟩) selfContaining () () (by decide) rfl 0 ⟨"x", .nowhere⟩ ⟨"x", .nowhere⟩ rfl rfl
  exact ⟨rfl, hcoherent, haccepts, m, hdone⟩

/-- An object with two properties of one name that are of different types. -/
def doubled : Expr :=
  .object none [] [(⟨"x", .nowhere⟩, some (.var ⟨"true", .nowhere⟩)),
    (⟨"x", .nowhere⟩, some (.var ⟨"null", .nowhere⟩))] .nowhere

def doubledType : Ty :=
  .struct "" [] [⟨"x", .primitive .bool, false⟩, ⟨"x", .primitive .null, false⟩]

theorem doubledType_unfit : doubledType.fits doubledType = false := by
  rw [doubledType, Ty.fits_eq rfl rfl, Ty.matchesForm, Bool.eq_false_iff]
  intro hcovers
  -- the second member is compared with the first
  have hsecond := Ty.covers_iff.1 hcovers _ (List.mem_cons_of_mem _ List.mem_cons_self)
  simp [Ty.fits, Ty.matchesForm, Ty.isDynamic] at hsecond

/-- The machine after `var o = doubled` at the start of a session. -/
def doubledMachine : Machine where
  store := (Session.start.store.newObject ⟨none, [], [("x", .bool true), ("x", .null)]⟩).2.bind 0 "o"
    ⟨.object 0, .mutable, some doubledType⟩

/-- A store with an instance whose type argument is a parameter bounded by a union. -/
def looseArgument : Store where
  objects := #[⟨some "Box", [.param "T" (some (.union [.primitive .number, .primitive .text]))], []⟩]

/-- After `var o = doubled` the assignment `o = o` fails. An instance with a loose type argument is not
accepted for its own type either. -/
theorem doubled_rejected :
    Eval.stmt { file := "main" } 3 Session.start.globals
      (.varDecl ⟨.mutable, ⟨"o", .nowhere⟩, none, some doubled⟩) Session.start.machine () =
      .done (.normal (.object 0)) doubledMachine () ∧
    doubledMachine.store.accepts Session.start.globals
      (doubledMachine.store.typeOf (.object 0)) (.object 0) = false ∧
    Eval.expr { file := "main" } 2 Session.start.globals
      (.assign (.var ⟨"o", .nowhere⟩) (.var ⟨"o", .nowhere⟩)) doubledMachine () =
      .failed (.variableMismatch "o" doubledType doubledType) doubledMachine () ∧
    looseArgument.accepts ⟨0, []⟩ (looseArgument.typeOf (.object 0)) (.object 0) = false := by
  have htype : doubledMachine.store.typeOf (.object 0) = doubledType := rfl
  have hmismatch : doubledMachine.store.mismatch? Session.start.globals doubledType (.object 0) =
      some (.structural doubledType doubledType) := by
    have hcompare : doubledMachine.store.compare doubledType (.object 0) =
        some (.structural doubledType doubledType) := by
      rw [Store.compare, htype, doubledType_unfit]
      rfl
    rw [doubledType, Store.mismatch?]
    exact hcompare
  refine ⟨rfl, ?_, ?_, ?_⟩
  · rw [htype, Store.accepts, hmismatch]
    rfl
  · have hassign : doubledMachine.store.assignment Session.start.globals "o" (.object 0) =
        .error (.variableMismatch "o" doubledType doubledType) := by
      have hchecked : doubledMachine.store.checkMutable Session.start.globals "o" = .ok () := rfl
      have howner : doubledMachine.store.owner? Session.start.globals "o" = some 0 := rfl
      have hbinding : doubledMachine.store.binding? Session.start.globals "o" =
          some ⟨.object 0, .mutable, some doubledType⟩ := rfl
      simp only [Store.assignment, hchecked, howner, hbinding, hmismatch]
      rfl
    have hread : doubledMachine.store.lookup Session.start.globals "o" = .ok (.object 0) := rfl
    simp only [Eval.expr, Inner.exprRule, Inner.assign, Eval.assign, Bind.bind, Eval.bind, Eval.query,
      hread, hassign]
    rfl
  · rw [Store.accepts_eq_verdict rfl (by rintro _ _ ⟨⟩)]
    show Ty.fits (.generic "Box" [.param "T" (some (.union [.primitive .number, .primitive .text]))])
      (.generic "Box" [.param "T" (some (.union [.primitive .number, .primitive .text]))]) = false
    simp [Ty.fits, Ty.matchesForm, Ty.pairsFit, Ty.anyFits, Ty.allFit, Ty.isDynamic]

end Sable
