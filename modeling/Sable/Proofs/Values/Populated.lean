import Sable.Proofs.Runs.Code
import Sable.Proofs.Values.Agreement

/-!
# Types without empty unions

`Ty.Populated` for the types that well-formed annotations stand for, as long as it holds of the declared
types, for the types of values, and for what comes of replacing parameters.
-/

namespace Sable

/-- An alias, a union or an array: a type in which others are met. -/
def Ty.isNest : Ty → Bool
  | .aliased _ _ | .union _ | .array _ => true
  | _ => false

theorem Ty.Populated.of_not_nest {t : Ty} (h : t.isNest = false) : t.Populated := by
  cases t with
  | aliased | union | array => cases h
  | _ => exact .other rfl (by rintro _ ⟨⟩)

namespace Store

variable {s : Store} {env : Env} {subst : Subst}

section

variable (hs : ∀ name t, s.type? env name = some t → t.Populated)
include hs

theorem evalType_populated (hsubst : ∀ p ∈ subst, p.2.Populated) {e : TypeExpr} {t : Ty}
    (he : e.Proper) (h : s.evalType env subst e = .ok t) : t.Populated := by
  induction he generalizing t with
  | union several _ ih =>
    obtain ⟨ts, hts, rfl⟩ := of_evalType h
    obtain ⟨hne, hmem⟩ := exists_of_evalTypes hts
    refine .union (hne (List.ne_nil_of_length_pos (Nat.lt_of_succ_lt several))) fun t ht => ?_
    obtain ⟨e, he, ht⟩ := hmem t ht
    exact ih e he ht
  | array _ ih =>
    obtain ⟨u, hu, rfl⟩ := of_evalType h
    exact .array (ih hu)
  | named =>
    rcases of_evalType h with ⟨p, hp, rfl⟩ | htype
    · exact hsubst p hp
    · exact hs _ _ htype
  | word =>
    obtain ⟨type, -, rfl⟩ := of_evalType h
    exact .of_not_nest rfl
  | generic =>
    obtain ⟨base, ts, -, rfl⟩ := of_evalType h
    exact .of_not_nest rfl
  | function =>
    obtain ⟨ts, u, -, -, rfl⟩ := of_evalType h
    exact .of_not_nest rfl

omit hs in
/-- A parameter stands for itself. -/
theorem evalTypeParams_populated {params : List TypeParam} {bounds : List Bound} {subst' : Subst}
    (hsubst : ∀ p ∈ subst, p.2.Populated)
    (h : s.evalTypeParams env params subst = .ok (bounds, subst')) :
    ∀ p ∈ subst', p.2.Populated := by
  induction params generalizing subst bounds with
  | nil =>
    cases h
    exact hsubst
  | cons param rest ih =>
    obtain ⟨bound, -, h⟩ := ok_of_bind h
    obtain ⟨⟨bounds, subst''⟩, hrest, h⟩ := ok_of_bind h
    cases h
    exact ih (List.forall_mem_cons.2 ⟨.of_not_nest rfl, hsubst⟩) hrest

theorem evalTypeDef_populated {name : String} {params : List TypeParam} {d : TypeExpr} {t : Ty}
    (hd : ∀ e ∈ d.annotations, e.Proper) (h : s.evalTypeDef env name params d = .ok t) : t.Populated := by
  cases d with
  | struct fields span | contract members span =>
    obtain ⟨_, -, h⟩ := ok_of_bind h
    obtain ⟨_, -, h⟩ := ok_of_bind h
    cases h
    exact .of_not_nest rfl
  | aliased target span =>
    obtain ⟨⟨_, subst⟩, hparams, h⟩ := ok_of_bind h
    obtain ⟨t', ht, h⟩ := ok_of_bind h
    have hsubst := evalTypeParams_populated (by simp) hparams
    split at h
    · cases h
    · cases h
      exact .aliased (evalType_populated hs hsubst (hd target List.mem_cons_self) ht)
  | _ =>
    obtain ⟨⟨_, subst⟩, hparams, h⟩ := ok_of_bind h
    exact evalType_populated hs (evalTypeParams_populated (by simp) hparams) (hd _ List.mem_cons_self) h

end

end Store

/-! ### Types of values -/

theorem Ty.substs_eq (σ : Subst) (ts : List Ty) : substs σ ts = ts.map (subst σ) := by
  induction ts with
  | nil => rfl
  | cons t ts ih => rw [substs, ih, List.map_cons]

theorem Ty.Populated.subst {σ : Subst} (hσ : ∀ p ∈ σ, p.2.Populated) {t : Ty} (h : t.Populated) :
    (t.subst σ).Populated := by
  induction h with
  | aliased h =>
    rw [Ty.subst]
    exact .aliased h
  | union some _ ih =>
    rw [Ty.subst, substs_eq]
    exact .union (by simpa using some) (List.forall_mem_map.2 ih)
  | array _ ih =>
    rw [Ty.subst]
    exact .array ih
  | @other t direct h =>
    cases t with
    | param name bound =>
      rw [Ty.subst]
      cases hlookup : σ.lookup name with
      | none => exact .of_not_nest rfl
      | some t => exact hσ _ (Assoc.mem_of_lookup hlookup)
    | aliased | union => cases direct
    | array element => exact absurd rfl (h element)
    | _ =>
      rw [Ty.subst]
      exact .of_not_nest rfl

namespace Store

theorem arrayType_populated {ts : List Ty} (h : ∀ t ∈ ts, t.Populated) :
    (arrayType ts).Populated := by
  have hmem : ∀ t ∈ distinct ts, t.Populated := fun t ht => h t (mem_distinct.1 ht)
  unfold arrayType
  split
  · exact .array (.of_not_nest rfl)
  · rename_i t heq
    exact .array (hmem t (by simp [heq]))
  · rename_i us hnil _
    exact .array (.union hnil hmem)

theorem typeWithin_populated (s : Store) : ∀ (depth : Nat) (seen : List Container) (v : Value),
    (s.typeWithin depth seen v).Populated
  | 0, _, _ => .of_not_nest rfl
  | depth + 1, seen, v => by
    cases v with
    | object a =>
      rw [typeWithin]
      split
      · exact .of_not_nest rfl
      · dsimp only
        split <;> exact .of_not_nest rfl
    | array a =>
      rw [typeWithin]
      split
      · exact .of_not_nest rfl
      · exact arrayType_populated (List.forall_mem_map.2 fun v _ => s.typeWithin_populated depth _ v)
    | _ => exact .of_not_nest rfl

theorem typeOf_populated (s : Store) (v : Value) : (s.typeOf v).Populated :=
  s.typeWithin_populated _ _ v

end Store

end Sable
