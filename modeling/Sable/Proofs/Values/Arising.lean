import Sable.Proofs.Forms.Runs
import Sable.Proofs.Values.Populated

/-!
# The types that arise in programs

`CodeLaw.populated`: the types that well-formed code declares are `Ty.Populated`. `Store.Arises` holds
of the types that values are checked against, and at every moment of every run these are populated too.
So `Store.accepts` and `Ty.settle` agree for them. They do not for the empty union.
-/

namespace Sable

/-! ### Runs -/

/-- Code that is well-formed declares types without empty unions only. -/
def CodeLaw.populated : CodeLaw :=
  { CodeLaw.wellFormed with
    type := Ty.Populated
    primitive := fun _ => .of_not_nest rfl
    meant := fun _ _ _ _ => trivial
    struct := fun _ _ => .of_not_nest rfl
    defined := fun hs htypes _ h => by
      have hown := (List.forall_mem_append.1 hs.own.types).1
      exact Store.evalTypeDef_populated (htypes _) (List.forall_mem_append.1 hown).2 h }

/-- The types that values are checked against: those that well-formed annotations stand for in the scope
of type parameters, those that values have, and those that come of both by replacing parameters. -/
inductive Store.Arises (s : Store) : Ty → Prop
  | annotated {e : TypeExpr} {env : Env} {params : List TypeParam} {bounds : List Bound} {subst : Subst}
      {t : Ty} (he : e.Proper) (hp : s.evalTypeParams env params = .ok (bounds, subst))
      (h : s.evalType env subst e = .ok t) : Arises s t
  | value (v : Value) : Arises s (s.typeOf v)
  | replaced {subst : Subst} {t : Ty} (hsubst : ∀ p ∈ subst, Arises s p.2) (h : Arises s t) :
      Arises s (t.subst subst)

theorem Store.Arises.populated {s : Store} {t : Ty} (h : s.Arises t) (hs : s.Lawful .populated) :
    t.Populated := by
  induction h with
  | annotated he hp h =>
    exact evalType_populated (fun _ _ => hs.type?) (evalTypeParams_populated (by simp) hp) he h
  | value v => exact s.typeOf_populated v
  | replaced _ _ hsubst h => exact h.subst hsubst

/-- The law holds at every moment of a session of parsed programs. -/
theorem Session.Reached.moment_populated {s : Session} (hs : s.Reached Program.IsParsed) {p : Program}
    (hp : p.IsParsed) {cfg : Config} {fuel : Nat} {x : Moment} (hx : x ∈ s.history cfg fuel p) :
    x.machine.store.Lawful .populated :=
  hs.moment_lawful (fun _ hp => hp.proper) hp hx

/-! ### Checks -/

/-- Where no struct has named a value, a type accepts it exactly if the comparison of the types says so:
for every type without empty unions, for every type at all if nothing in the value is of dynamic type, and
so for every type that arises while programs are run. -/
theorem Store.checks_agree :
    (∀ (s : Store) (env : Env) (v : Value) (t : Ty), s.Anonymous v → t.Populated ∨ s.Concrete v →
      (s.accepts env t v = true ↔ (Ty.settle (s.typeOf v) t).1 = true)) ∧
    ∀ s, Session.Reached Program.IsParsed s → ∀ p, Program.IsParsed p → ∀ cfg fuel,
      ∀ x ∈ s.history cfg fuel p, ∀ t, x.machine.store.Arises t →
        ∀ (s' : Store) (env : Env) (v : Value), s'.Anonymous v →
          (s'.accepts env t v = true ↔ (Ty.settle (s'.typeOf v) t).1 = true) := by
  simp only [Ty.settle_fst]
  refine ⟨fun s env v t hv ht => hv.accepts_iff_fits ht, ?_⟩
  intro s hs p hp cfg fuel x hx t ht s' env v hv
  exact hv.accepts_iff_fits (.inl (ht.populated (hs.moment_populated hp hx)))

/-- A union without members refuses a built-in function, whose type is dynamic and fits it. -/
theorem emptyUnion_disagrees :
    let s : Store := {}
    s.Anonymous (.builtin .print) ∧ s.accepts ⟨0, []⟩ (.union []) (.builtin .print) = false ∧
      (Ty.settle (s.typeOf (.builtin .print)) (.union [])).1 = true := by
  intro s
  refine ⟨.intro (by rintro _ ⟨⟩) (by simp [Store.parts]), ?_, ?_⟩
  · rw [Bool.eq_false_iff, Ne, Store.accepts_union]
    simp
  · rw [Ty.settle_fst]
    exact Ty.fits_of_dynamic (.inl rfl)

/-- A store with an object, an empty array and a built-in function in one array. -/
def mixture : Store where
  objects := #[⟨none, [], [("flag", .bool true)]⟩]
  arrays := #[#[], #[.object 0, .array 0, .builtin .print]]

theorem mixture_anonymous : mixture.Anonymous (.array 1) := by
  have hleaf (x : Value) (hx : ∀ a, x ≠ .object a) (hp : mixture.parts x = []) :
      mixture.Anonymous x :=
    .intro (fun a ha => absurd ha (hx a)) (by simp [hp])
  have hflag : mixture.Anonymous (.bool true) := hleaf _ (by rintro _ ⟨⟩) rfl
  have hobject : mixture.Anonymous (.object 0) :=
    .intro (by rintro _ ⟨⟩; rfl) (List.forall_mem_singleton.2 hflag)
  have hempty : mixture.Anonymous (.array 0) := hleaf _ (by rintro _ ⟨⟩) rfl
  have hbuiltin : mixture.Anonymous (.builtin .print) := hleaf _ (by rintro _ ⟨⟩) rfl
  refine .intro (by rintro _ ⟨⟩) ?_
  show ∀ y ∈ [Value.object 0, .array 0, .builtin .print], mixture.Anonymous y
  simp [hobject, hempty, hbuiltin]

/-- An alias of a union in which the type of a member is left open. -/
def itemType (t : Ty) : Ty :=
  .aliased "Item" (.union [.primitive .number, .struct "" [] [⟨"flag", t, false⟩],
    .array (.primitive .text)])

theorem mixture_fits (t : Ty) : (mixture.typeOf (.array 1)).fits (.array (itemType t)) = true ↔
    Ty.fits (.primitive .bool) t = true := by
  have hmembers : Ty.fits (.struct "" [] [⟨"flag", .primitive .bool, false⟩])
      (.struct "" [] [⟨"flag", t, false⟩]) = true ↔ Ty.fits (.primitive .bool) t = true := by
    rw [Ty.fits_eq rfl rfl, Ty.matchesForm, Ty.covers_iff, List.forall_mem_singleton]
    exact Iff.rfl
  have hother (u : Ty) (hu : u = .primitive .number ∨ u = .array (.primitive .text)) :
      Ty.fits (.struct "" [] [⟨"flag", .primitive .bool, false⟩]) u = false := by
    rcases hu with rfl | rfl <;> simp [Ty.fits, Ty.matchesForm, Ty.isDynamic]
  have hempty : Ty.fits (.array .dynamic) (itemType t) = true := by
    simp [itemType, Ty.fits, Ty.matchesForm, Ty.anyFits, Ty.isDynamic, Ty.dynamic]
  have hobject : Ty.fits (.struct "" [] [⟨"flag", .primitive .bool, false⟩]) (itemType t) = true ↔
      Ty.fits (.primitive .bool) t = true := by
    rw [itemType, Ty.fits_aliased_right rfl rfl, Ty.fits_union_right rfl rfl]
    simp [hmembers, hother]
  rw [mixture_anonymous.typeOf_array, Store.arrayType_fits]
  show (∀ u ∈ [Ty.struct "" [] [⟨"flag", .primitive .bool, false⟩], .array .dynamic, .dynamic],
    u.fits (itemType t) = true) ↔ _
  have hbuiltin : Ty.dynamic.fits (itemType t) = true := Ty.fits_of_dynamic (.inl rfl)
  simp [hobject, hempty, hbuiltin]

/-- The array is accepted where the member is of a parameter bounded by its type and refused where it
is a text. A union without members refuses the object, whose type does not fit it. The type that `Key`
stands for in a run is one for which the two checks agree. -/
theorem mixture_agrees :
    let cfg : Config := { file := "main" }
    let here : Env := ⟨0, []⟩
    (mixture.accepts here (.array (itemType (.param "T" (some (.primitive .bool))))) (.array 1) = true ∧
      mixture.accepts here (.array (itemType (.primitive .text))) (.array 1) = false ∧
      mixture.accepts here (.union []) (.object 0) = false) ∧
    ∃ p, Program.parse "main" "alias Key = number | string" = .ok p ∧
      ∃ x ∈ Session.start.history cfg 5 p, ∃ t,
        x.machine.store.evalType Session.start.globals [] (.named ⟨"Key", .nowhere⟩) = .ok t ∧
        (mixture.accepts here t (.array 1) = true ↔
          (Ty.settle (mixture.typeOf (.array 1)) t).1 = true) := by
  intro cfg here
  obtain ⟨hgeneral, hruns⟩ := Store.checks_agree
  have hpopulated (t : Ty) : (Ty.array (itemType t)).Populated := by
    refine .array (.aliased (.union (by simp) ?_))
    simp only [List.forall_mem_cons]
    exact ⟨.of_not_nest rfl, .of_not_nest rfl, .array (.of_not_nest rfl), List.forall_mem_nil _⟩
  have hcheck (t : Ty) : mixture.accepts here (.array (itemType t)) (.array 1) = true ↔
      Ty.fits (.primitive .bool) t = true := by
    rw [hgeneral mixture here _ _ mixture_anonymous (.inl (hpopulated t)), Ty.settle_fst, mixture_fits]
  have hobject : mixture.Concrete (.object 0) :=
    .intro rfl (List.forall_mem_singleton.2 (.intro rfl (by simp [Store.parts])))
  refine ⟨⟨(hcheck _).2 ?_, ?_, ?_⟩, ?_⟩
  · simp [Ty.fits, Ty.matchesForm]
  · rw [Bool.eq_false_iff, Ne, hcheck]
    simp [Ty.fits, Ty.matchesForm, Ty.isDynamic]
  · have hpart : Value.object 0 ∈ mixture.parts (.array 1) := List.mem_cons_self
    rw [Bool.eq_false_iff, Ne, hgeneral mixture here _ _ (mixture_anonymous.part hpart) (.inr hobject),
      Ty.settle_fst, Ty.fits_union_right rfl rfl]
    simp
  · have hrun : (Program.parse "main" "alias Key = number | string").toOption.any (fun p =>
        (Session.start.history cfg 5 p).any fun x =>
          (x.machine.store.type? Session.start.globals "Key").isSome) = true := by decide +kernel
    obtain ⟨p, hp, hrun⟩ := exists_of_toOption_any hrun
    obtain ⟨x, hx, hkey⟩ := List.any_eq_true.1 hrun
    obtain ⟨t, ht⟩ := Option.isSome_iff_exists.1 hkey
    have hparams : x.machine.store.evalTypeParams Session.start.globals [] = .ok ([], []) := rfl
    have heval : x.machine.store.evalType Session.start.globals [] (.named ⟨"Key", .nowhere⟩) =
        .ok t := by
      simp [Store.evalType, ht]
    refine ⟨p, hp, x, hx, t, heval, ?_⟩
    exact hruns _ .start p ⟨_, _, hp⟩ cfg 5 x hx t (.annotated (.named _) hparams heval) mixture here _
      mixture_anonymous

end Sable
