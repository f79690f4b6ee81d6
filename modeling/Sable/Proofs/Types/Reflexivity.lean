import Sable.Ty.Fits
import Sable.Store.Types

/-!
# Types that fit themselves

`Ty.Coherent`: the members of a struct have distinct names, and no union stands behind the bound of a
type parameter. Coherent types fit themselves. Otherwise a member is compared with the first of its
name, and a parameter that may be any member of a union fits no member alone.
-/

namespace Sable

namespace Ty

/-- A union as it stands. -/
def isUnion : Ty → Bool
  | union _ => true
  | _ => false

/-- Neither a union nor an alias: what such a type fits is decided by the target alone. -/
def isDirect : Ty → Bool
  | union _ | aliased _ _ => false
  | _ => true

/-- Neither an alias nor a type parameter with a bound. -/
def isBare : Ty → Bool
  | aliased _ _ | param _ (some _) => false
  | _ => true

/-- What stands behind aliases and the bounds of type parameters. -/
def core : Ty → Ty
  | aliased _ target => core target
  | param _ (some bound) => core bound
  | type => type

/-- Member names are distinct, and parameters are not bounded by unions. -/
inductive Coherent : Ty → Prop
  | primitive (p : Primitive) : Coherent (.primitive p)
  | struct {name : String} {params : List Bound} {members : List Member}
      (distinct : (members.map (·.name)).Nodup) (h : ∀ m ∈ members, Coherent m.type) :
      Coherent (.struct name params members)
  | aliased {name : String} {target : Ty} (h : Coherent target) : Coherent (.aliased name target)
  | generic {name : String} {args : List Ty} (h : ∀ a ∈ args, Coherent a) :
      Coherent (.generic name args)
  | union {members : List Ty} (h : ∀ m ∈ members, Coherent m) : Coherent (.union members)
  | array {element : Ty} (h : Coherent element) : Coherent (.array element)
  | free (name : String) : Coherent (.param name none)
  | bounded {name : String} {bound : Ty} (single : bound.core.isUnion = false)
      (h : Coherent bound) : Coherent (.param name (some bound))
  | function {params : List Ty} {result : Option Ty} (hp : ∀ p ∈ params, Coherent p)
      (hr : ∀ r ∈ result, Coherent r) : Coherent (.function params result)
  | contract (name : String) (members : List Signature) : Coherent (.contract name members)

/-! ### The rules as equivalences -/

section

variable {s t : Ty} {n : String} {ms : List Ty}

theorem fits_of_dynamic (h : s.isDynamic = true ∨ t.isDynamic = true) : fits s t = true := by
  rw [fits]
  rcases h with h | h <;> simp [h]

theorem fits_eq (hs : s.isDynamic = false) (ht : t.isDynamic = false) :
    fits s t = matchesForm s t := by
  rw [fits, hs, ht]
  rfl

theorem allFit_iff : allFit ms t = true ↔ ∀ m ∈ ms, fits m t = true := by
  induction ms with
  | nil => simp [allFit]
  | cons m ms ih => simp [allFit, ih]

theorem anyFits_iff : anyFits s ms = true ↔ ∃ m ∈ ms, fits s m = true := by
  induction ms with
  | nil => simp [anyFits]
  | cons m ms ih => simp [anyFits, ih]

theorem fits_union_left : fits (union ms) t = true ↔ ∀ m ∈ ms, fits m t = true := by
  cases ht : t.isDynamic with
  | true => simp [fits_of_dynamic (.inr ht)]
  | false =>
    rw [fits_eq rfl ht, ← allFit_iff]
    cases t <;> simp [matchesForm]

theorem fits_union_right (hs : s.isUnion = false) (hd : s.isDynamic = false) :
    fits s (union ms) = true ↔ ∃ m ∈ ms, fits s m = true := by
  rw [fits_eq hd rfl, ← anyFits_iff]
  cases s <;> simp_all [matchesForm, isUnion]

theorem fits_aliased_left (ht : t.isUnion = false) :
    fits (aliased n s) t = true ↔ fits s t = true := by
  cases hd : t.isDynamic with
  | true => simp [fits_of_dynamic (.inr hd)]
  | false =>
    rw [fits_eq rfl hd]
    cases t <;> simp_all [matchesForm, isUnion]

theorem fits_aliased_right (hs : s.isDirect = true) (hd : s.isDynamic = false) :
    fits s (aliased n t) = true ↔ fits s t = true := by
  rw [fits_eq hd rfl]
  cases s <;> simp_all [matchesForm, isDirect]

theorem fits_bounded (hs : s.isDirect = true) (hd : s.isDynamic = false) :
    fits s (param n (some t)) = true ↔ fits s t = true := by
  rw [fits_eq hd rfl]
  cases s <;> simp_all [matchesForm, isDirect]

theorem fits_free (hs : s.isDirect = true) (hd : s.isDynamic = false) :
    fits s (param n none) = true := by
  rw [fits_eq hd rfl]
  cases s <;> simp_all [matchesForm, isDirect]

theorem bounded_fits (ht : t.isBare = true) (hu : t.isUnion = false) (h : fits s t = true) :
    fits (param n (some s)) t = true := by
  cases hd : t.isDynamic with
  | true => exact fits_of_dynamic (.inr hd)
  | false =>
    rw [fits_eq rfl hd]
    cases t with
    | param m b => cases b <;> simp_all [matchesForm, isBare]
    | _ => simp_all [matchesForm, isBare, isUnion]

theorem pairsFit_self {ts : List Ty} (h : ∀ t ∈ ts, fits t t = true) : pairsFit ts ts = true := by
  induction ts with
  | nil => simp [pairsFit]
  | cons t ts ih =>
    rw [pairsFit, h t List.mem_cons_self, ih fun u hu => h u (List.mem_cons_of_mem _ hu)]
    rfl

theorem covers_iff {ms ws : List Member} : covers ms ws = true ↔ ∀ w ∈ ws,
    (match ms.find? fun m => m.name == w.name with
      | some m => fits m.type w.type
      | none => w.optional) = true := by
  induction ws with
  | nil => simp [covers]
  | cons w ws ih =>
    rw [covers, Bool.and_eq_true, ih, List.forall_mem_cons]
    refine and_congr_left fun _ => ?_
    split <;> rename_i hfind <;> simp only [hfind]

/-! ### Unions and aliases in the target -/

/-- What fits one member of a union fits the union. -/
theorem fits_union_of_mem {m : Ty} (hm : m ∈ ms) : ∀ s : Ty, fits s m = true →
    fits s (union ms) = true
  | union ns, h => by
    rw [fits_union_left] at h ⊢
    intro x hx
    have := List.sizeOf_lt_of_mem hx
    exact fits_union_of_mem hm x (h x hx)
  | primitive p, h => by
    cases hp : (primitive p).isDynamic with
    | true => exact fits_of_dynamic (.inl hp)
    | false => exact (fits_union_right rfl hp).2 ⟨m, hm, h⟩
  | struct _ _ _, h | aliased _ _, h | generic _ _, h | array _, h | param _ _, h | function _ _, h
  | contract _ _, h => (fits_union_right rfl rfl).2 ⟨m, hm, h⟩
termination_by s => sizeOf s

/-- Where an alias fits, what it stands for does. -/
theorem fits_of_aliased : ∀ t : Ty, fits (aliased n s) t = true → fits s t = true
  | union ts, h => by
    obtain ⟨t, ht, hfit⟩ := (fits_union_right rfl rfl).1 h
    have := List.sizeOf_lt_of_mem ht
    exact fits_union_of_mem ht s (fits_of_aliased t hfit)
  | primitive _, h | struct _ _ _, h | aliased _ _, h | generic _ _, h | array _, h | param _ _, h
  | function _ _, h | contract _ _, h => (fits_aliased_left rfl).1 h
termination_by t => sizeOf t

/-- What fits a type fits an alias of it. -/
theorem fits_aliased : ∀ s : Ty, fits s t = true → fits s (aliased n t) = true
  | union ns, h => by
    rw [fits_union_left] at h ⊢
    intro x hx
    have := List.sizeOf_lt_of_mem hx
    exact fits_aliased x (h x hx)
  | aliased m u, h => (fits_aliased_left rfl).2 (fits_aliased u (fits_of_aliased t h))
  | primitive p, h => by
    cases hp : (primitive p).isDynamic with
    | true => exact fits_of_dynamic (.inl hp)
    | false => exact (fits_aliased_right rfl hp).2 h
  | struct _ _ _, h | generic _ _, h | array _, h | param _ _, h | function _ _, h
  | contract _ _, h => (fits_aliased_right rfl rfl).2 h
termination_by s => sizeOf s

/-! ### Parameters -/

/-- A parameter fits a type if it fits what stands behind that. -/
theorem param_fits {b : Option Ty} : ∀ t : Ty, t.core.isUnion = false →
    fits (param n b) t.core = true → fits (param n b) t = true
  | aliased _ u, hu, h => (fits_aliased_right rfl rfl).2 (param_fits u hu h)
  | param _ (some c), hu, h => (fits_bounded rfl rfl).2 (param_fits c hu h)
  | param _ none, _, h | primitive _, _, h | struct _ _ _, _, h | generic _ _, _, h | array _, _, h
  | function _ _, _, h | contract _ _, _, h | union _, _, h => h

theorem core_isBare : ∀ t : Ty, t.core.isBare = true
  | aliased _ u => core_isBare u
  | param _ (some c) => core_isBare c
  | param _ none | primitive _ | struct _ _ _ | generic _ _ | array _ | function _ _ | contract _ _
  | union _ => rfl

/-! ### Fitting oneself -/

/-- Among members with names of their own, each is the first of its name. -/
theorem find?_of_distinct {ms : List Member} (h : (ms.map (·.name)).Nodup) {w : Member}
    (hw : w ∈ ms) : ms.find? (fun m => m.name == w.name) = some w := by
  induction ms with
  | nil => cases hw
  | cons m ms ih =>
    rw [List.map_cons, List.nodup_cons] at h
    rcases List.mem_cons.1 hw with rfl | hw
    · simp
    · have hne : m.name ≠ w.name := by
        rintro heq
        exact h.1 (heq ▸ List.mem_map_of_mem hw)
      rw [List.find?_cons_of_neg (by simpa using hne)]
      exact ih h.2 hw

/-- A coherent type fits itself, and what stands behind it unless that is a union. -/
theorem Coherent.fits_core {t : Ty} (h : t.Coherent) :
    fits t t = true ∧ (t.core.isUnion = false → fits t t.core = true) := by
  -- the second part is what the bound of a parameter has to give
  induction h with
  | primitive p =>
    have hself : fits (.primitive p) (.primitive p) = true := by
      cases p <;> simp [fits, matchesForm]
    exact ⟨hself, fun _ => hself⟩
  | @struct name params members distinct h ih =>
    have hself : fits (.struct name params members) (.struct name params members) = true := by
      rw [fits_eq rfl rfl, matchesForm, covers_iff]
      intro w hw
      simp only [find?_of_distinct distinct hw]
      exact (ih w hw).1
    exact ⟨hself, fun _ => hself⟩
  | @aliased name target h ih =>
    refine ⟨(fits_aliased_left rfl).2 (fits_aliased target ih.1), fun hu => ?_⟩
    exact (fits_aliased_left hu).2 (ih.2 hu)
  | @generic name args h ih =>
    have hself : fits (.generic name args) (.generic name args) = true := by
      rw [fits_eq rfl rfl, matchesForm, pairsFit_self fun a ha => (ih a ha).1]
      simp
    exact ⟨hself, fun _ => hself⟩
  | @union members h ih =>
    refine ⟨fits_union_left.2 fun m hm => fits_union_of_mem hm m (ih m hm).1, fun hu => ?_⟩
    simp [core, isUnion] at hu
  | @array element h ih =>
    have hself : fits (.array element) (.array element) = true := by
      rw [fits_eq rfl rfl, matchesForm]
      exact ih.1
    exact ⟨hself, fun _ => hself⟩
  | free name => exact ⟨fits_free rfl rfl, fun _ => fits_free rfl rfl⟩
  | @bounded name bound single h ih =>
    have hcore : fits (.param name (some bound)) bound.core = true :=
      bounded_fits (core_isBare bound) single (ih.2 single)
    exact ⟨(fits_bounded rfl rfl).2 (param_fits bound single hcore), fun _ => hcore⟩
  | @function params result hp hr ihp ihr =>
    have hparams : pairsFit params params = true := pairsFit_self fun p hp => (ihp p hp).1
    have hself : fits (.function params result) (.function params result) = true := by
      rw [fits_eq rfl rfl]
      cases result with
      | none => simp [matchesForm, hparams]
      | some r => simp [matchesForm, hparams, (ihr r rfl).1]
    exact ⟨hself, fun _ => hself⟩
  | contract name members =>
    have hself : fits (.contract name members) (.contract name members) = true := by
      rw [fits_eq rfl rfl, matchesForm]
      simp
    exact ⟨hself, fun _ => hself⟩

/-- A type fits itself if the structs in it do not repeat a member and no parameter in it is bounded by
a union. -/
theorem fits_self {t : Ty} (h : t.Coherent) : fits t t = true :=
  h.fits_core.1

end

/-- A struct whose members are a union with an alias of a union in it, functions over a parameter that
is bounded by another, and itself. -/
def tangled : Ty :=
  let either := union [.primitive .number, .primitive .text]
  let outer := param "T" (some (.aliased "Numbers" (.array (.primitive .number))))
  let inner := param "U" (some outer)
  .struct "Tangled" [⟨"T", none⟩]
    [⟨"choice", union [.aliased "Either" either, union [.primitive .null, either]], true⟩,
     ⟨"map", .function [inner, union [inner, .primitive .bool]] (some (.generic "Box" [outer])), false⟩,
     ⟨"self", .struct "Tangled" [⟨"T", none⟩] [], true⟩]

theorem tangled_fits : tangled.Coherent ∧ fits tangled tangled = true := by
  have heither : Coherent (union [.primitive .number, .primitive .text]) :=
    .union (by simp [Coherent.primitive])
  have houter : Coherent (param "T" (some (.aliased "Numbers" (.array (.primitive .number))))) :=
    .bounded rfl (.aliased (.array (.primitive _)))
  have hinner : Coherent (param "U" (some
      (param "T" (some (.aliased "Numbers" (.array (.primitive .number))))))) := .bounded rfl houter
  have hchoice : Coherent (union [.aliased "Either" (union [.primitive .number, .primitive .text]),
      union [.primitive .null, union [.primitive .number, .primitive .text]]]) := by
    refine .union ?_
    simp only [List.forall_mem_cons, List.not_mem_nil, false_imp_iff, implies_true, and_true]
    exact ⟨.aliased heither, .union (by simp [Coherent.primitive, heither])⟩
  have htangled : tangled.Coherent := by
    refine .struct (by decide) ?_
    simp only [List.forall_mem_cons, List.not_mem_nil, false_imp_iff, implies_true, and_true]
    refine ⟨hchoice, .function ?_ ?_, .struct .nil nofun⟩
    · simp only [List.forall_mem_cons, List.not_mem_nil, false_imp_iff, implies_true, and_true]
      exact ⟨hinner, .union (by simp [Coherent.primitive, hinner])⟩
    · rintro r ⟨⟩
      exact .generic (by simpa using houter)
  exact ⟨htangled, fits_self htangled⟩

/-- Two types that do not fit themselves: the parameter of a declaration bounded by a union, and a
struct with two members of one name. -/
theorem unfit_for_themselves :
    (∃ bounds subst t, ({} : Store).evalTypeParams ⟨0, []⟩
        [⟨⟨"T", .nowhere⟩,
          some (.union [.primitive .number .nowhere, .primitive .text .nowhere] .nowhere)⟩] =
          .ok (bounds, subst) ∧
      subst.lookup "T" = some t ∧ fits t t = false) ∧
    ∃ t, ({} : Store).evalTypeDef ⟨0, []⟩ "S" []
        (.struct [⟨⟨"x", .nowhere⟩, .primitive .number .nowhere, false⟩,
          ⟨⟨"x", .nowhere⟩, .primitive .text .nowhere, false⟩] .nowhere) = .ok t ∧
      fits t t = false := by
  refine ⟨⟨_, _, _, rfl, rfl, ?_⟩, _, rfl, ?_⟩
  · simp [fits, matchesForm, anyFits, allFit, isDynamic]
  · rw [Bool.eq_false_iff]
    intro hfits
    rw [fits_eq rfl rfl, matchesForm, covers_iff] at hfits
    have hsecond := hfits _ (List.mem_cons_of_mem _ List.mem_cons_self)
    simp [fits, matchesForm, isDynamic] at hsecond

end Ty

end Sable
