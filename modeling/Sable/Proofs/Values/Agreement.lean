import Sable.Proofs.Values.Checks

/-!
# Checks of values and checks of types

`Store.accepts` goes through a value, `Ty.fits` through two types. For an `Anonymous` value they agree:
a type accepts the value if and only if the type of the value fits it, provided that the type is
`Populated` or the value `Concrete`.
-/

namespace Sable

namespace Ty

/-! ### The pair that decides -/

mutual

/-- Which pair of types decides a comparison does not change its outcome. -/
theorem settle_fst (source target : Ty) : (settle source target).1 = fits source target := by
  rw [settle]
  split
  · rename_i hd
    rw [fits_of_dynamic (by simpa using hd)]
  · rename_i hd
    obtain ⟨hs, ht⟩ : source.isDynamic = false ∧ target.isDynamic = false := by simpa using hd
    exact settleForm_fst source target hs ht
termination_by (sizeOf source + sizeOf target, 1)

theorem settleForm_fst (source target : Ty) (hs : source.isDynamic = false)
    (ht : target.isDynamic = false) : (settleForm source target).1 = fits source target := by
  rw [settleForm.eq_def]
  split
  · rfl
  · rename_i members hunion
    rw [Bool.eq_iff_iff, settleAny_fst source members rfl, fits_union_right _ hs]
    cases source <;> first | rfl | exact absurd rfl (hunion _)
  · rename_i name inner hunion
    rw [settle_fst inner target, Bool.eq_iff_iff, fits_aliased_left]
    cases target <;> first | rfl | exact absurd rfl (hunion _)
  · rename_i name inner hunion haliased
    rw [settle_fst source inner, Bool.eq_iff_iff, fits_aliased_right _ hs]
    cases source <;> first | rfl | exact absurd rfl (hunion _) | exact absurd rfl (haliased _ _)
  · rfl
termination_by (sizeOf source + sizeOf target, 0)

theorem settleAny_fst (source : Ty) (members : List Ty) {d : Bool × Ty × Ty} (hd : d.1 = false) :
    ((settleAny source members).getD d).1 = true ↔ ∃ m ∈ members, fits source m = true := by
  match members with
  | [] => simp [settleAny, hd]
  | m :: rest =>
    rw [settleAny, settle_fst source m]
    cases hfits : fits source m with
    | true => simp [settle_fst source m, hfits]
    | false => simp [settleAny_fst source rest hd, hfits]
termination_by (sizeOf source + sizeOf members, 0)

end

end Ty

/-! ### Values without structs -/

/-- No empty union is met behind aliases, in unions and in arrays. -/
inductive Ty.Populated : Ty → Prop
  | aliased {name : String} {target : Ty} (h : Populated target) : Populated (.aliased name target)
  | union {members : List Ty} (some : members ≠ []) (h : ∀ m ∈ members, Populated m) :
      Populated (.union members)
  | array {element : Ty} (h : Populated element) : Populated (.array element)
  | other {t : Ty} (direct : t.isDirect = true) (h : ∀ element, t ≠ .array element) : Populated t

namespace Store

variable {s : Store} {env : Env} {x : Value} {t : Ty}

/-- A value without cycles in which no object is an instance of a struct. -/
inductive Anonymous (s : Store) : Value → Prop
  | intro {x : Value} (untagged : ∀ a, x = .object a → (s.object a).tag = none)
      (h : ∀ y ∈ s.parts x, Anonymous s y) : Anonymous s x

namespace Anonymous

theorem acyclic (h : s.Anonymous x) : s.Acyclic x := by
  induction h with
  | intro _ _ ih => exact .intro ih

theorem part {y : Value} (h : s.Anonymous x) (hy : y ∈ s.parts x) : s.Anonymous y := by
  cases h with
  | intro _ h => exact h y hy

theorem tag_eq {a : Nat} (h : s.Anonymous (.object a)) : (s.object a).tag = none := by
  cases h with
  | intro untagged _ => exact untagged a rfl

theorem typeOf_object {a : Nat} (h : s.Anonymous (.object a)) :
    ∃ members, s.typeOf (.object a) = .struct "" [] members := by
  have hopen : (s.object a).isSealed = false := by simp [Obj.isSealed, h.tag_eq]
  have htype := h.acyclic.typeOf_container (c := .object a)
  simp only [shape, hopen, h.tag_eq, Bool.false_eq_true, if_false] at htype
  exact ⟨_, htype⟩

theorem typeOf_array {a : Nat} (h : s.Anonymous (.array a)) :
    s.typeOf (.array a) = arrayType ((s.array a).toList.map s.typeOf) :=
  h.acyclic.typeOf_container (c := .array a)

/-- The type of a value is neither a union nor an alias. -/
theorem isDirect_typeOf (h : s.Anonymous x) : (s.typeOf x).isDirect = true := by
  cases x with
  | object a =>
    obtain ⟨members, htype⟩ := h.typeOf_object
    rw [htype]
    rfl
  | array a =>
    obtain ⟨t, ht⟩ := arrayType_eq ((s.array a).toList.map s.typeOf)
    rw [h.typeOf_array, ht]
    rfl
  | _ => rfl

/-- Without a struct to go by, a check looks at the type of the value only. -/
theorem verdict_eq_fits (h : s.Anonymous x) :
    s.verdict env t (s.typeOf x) (s.head x) = (s.typeOf x).fits t := by
  cases x with
  | object a =>
    obtain ⟨members, htype⟩ := h.typeOf_object
    rw [head, h.tag_eq, htype]
    cases t with
    | contract name signatures =>
      rw [Ty.fits_eq rfl rfl]
      simp [verdict, Ty.matchesForm]
    | _ => rfl
  | _ => rfl

end Anonymous

/-- A value that is not of dynamic type, nor is anything inside it. -/
inductive Concrete (s : Store) : Value → Prop
  | intro {x : Value} (own : (s.typeOf x).isDynamic = false) (h : ∀ y ∈ s.parts x, Concrete s y) :
      Concrete s x

/-- What counts as anything is not accepted by a union without members, though its type fits it, so
the two must not meet. -/
def Compares (s : Store) (x : Value) (t : Ty) : Prop :=
  t.Populated ∨ s.Concrete x

namespace Compares

theorem aliased {name : String} (h : s.Compares x (.aliased name t)) : s.Compares x t :=
  h.imp_left fun
    | .aliased h => h

theorem member {members : List Ty} {m : Ty} (h : s.Compares x (.union members)) (hm : m ∈ members) :
    s.Compares x m :=
  h.imp_left fun
    | .union _ h => h m hm

theorem element {y : Value} (h : s.Compares x (.array t)) (hy : y ∈ s.parts x) : s.Compares y t :=
  h.imp (fun
    | .array h => h
    | .other _ h => absurd rfl (h t)) fun
    | .intro _ h => h y hy

/-- What is of dynamic type meets unions with members only. -/
theorem exists_member {members : List Ty} (h : s.Compares x (.union members))
    (hd : (s.typeOf x).isDynamic = true) : ∃ m, m ∈ members := by
  rcases h with h | h
  · cases h with
    | union some _ => exact List.exists_mem_of_ne_nil members some
    | other direct _ => cases direct
  · cases h with
    | intro own _ => exact absurd hd (by simp [own])

end Compares

/-- A type accepts a value exactly if the type of the value fits it. -/
theorem Anonymous.accepts_iff_fits : ∀ {t : Ty} {x : Value}, s.Anonymous x → s.Compares x t →
    (s.accepts env t x = true ↔ (s.typeOf x).fits t = true)
  | .aliased name target, x, hx, hc => by
    rw [accepts_aliased, accepts_iff_fits hx hc.aliased]
    cases hd : (s.typeOf x).isDynamic with
    | true => simp [Ty.fits_of_dynamic (.inl hd)]
    | false => exact (Ty.fits_aliased_right hx.isDirect_typeOf hd).symm
  | .union members, x, hx, hc => by
    have hmembers : (∃ m ∈ members, s.accepts env m x = true) ↔
        ∃ m ∈ members, (s.typeOf x).fits m = true :=
      exists_congr fun m => and_congr_right fun hm => accepts_iff_fits hx (hc.member hm)
    rw [accepts_union, hmembers]
    cases hd : (s.typeOf x).isDynamic with
    | true =>
      -- what counts as anything fits any member, and there is one
      obtain ⟨m, hm⟩ := hc.exists_member hd
      exact iff_of_true ⟨m, hm, Ty.fits_of_dynamic (.inl hd)⟩ (Ty.fits_of_dynamic (.inl hd))
    | false =>
      refine (Ty.fits_union_right ?_ hd).symm
      have hdirect := hx.isDirect_typeOf
      generalize s.typeOf x = type at hdirect
      cases type <;> first | rfl | cases hdirect
  | .array element, x, hx, hc => by
    by_cases harray : ∃ a, x = .array a
    · obtain ⟨a, rfl⟩ := harray
      rw [accepts_array, hx.typeOf_array, arrayType_fits, List.forall_mem_map]
      exact forall₂_congr fun y hy => accepts_iff_fits (hx.part hy) (hc.element hy)
    · rw [accepts_eq_verdict rfl fun _ a _ hxa => harray ⟨a, hxa⟩, hx.verdict_eq_fits]
  | .primitive _, _, hx, _ | .function _ _, _, hx, _ | .struct _ _ _, _, hx, _
  | .contract _ _, _, hx, _ | .generic _ _, _, hx, _ | .param _ _, _, hx, _ => by
    rw [accepts_eq_verdict rfl (by rintro _ _ ⟨⟩), hx.verdict_eq_fits]

end Store

end Sable
