import Sable.Proofs.Runs.Code
import Sable.Proofs.Store.Scopes

/-!
# Growing stores

`Store.Keeps`: names are added to scopes and never removed, a type recorded for a name stays, and only a
mutable variable takes another value. Every `Change` to a store keeps it.
-/

namespace Sable

/-- The modifier stays, the type too once there is one, and so does the value unless the
binding is mutable. -/
structure Binding.Keeps (old new : Binding) : Prop where
  modifier : new.modifier = old.modifier
  value : old.modifier ≠ .mutable → new.value = old.value
  type : ∀ t, old.type = some t → new.type = some t

/-- Names, types, methods, getters and fulfillments of the old scope are in the new one. A method or
getter may be another one there. -/
structure Scope.Keeps (old new : Scope) : Prop where
  vars : ∀ name b, old.vars.lookup name = some b →
    ∃ b', new.vars.lookup name = some b' ∧ b.Keeps b'
  types : ∀ name t, old.types.lookup name = some t → new.types.lookup name = some t
  methods : ∀ key, (old.methods.lookup key).isSome → (new.methods.lookup key).isSome
  getters : ∀ key, (old.getters.lookup key).isSome → (new.getters.lookup key).isSome
  fulfillments : ∀ x ∈ old.fulfillments, x ∈ new.fulfillments

/-- Every scope of the old store is in the new one, with what it had. -/
structure Store.Keeps (old new : Store) : Prop where
  size : old.scopes.size ≤ new.scopes.size
  scope : ∀ a, (old.scope a).Keeps (new.scope a)

namespace Binding.Keeps

theorem refl (b : Binding) : b.Keeps b :=
  ⟨rfl, fun _ => rfl, fun _ h => h⟩

theorem trans {b b' b'' : Binding} (h : b.Keeps b') (h' : b'.Keeps b'') : b.Keeps b'' where
  modifier := h'.modifier.trans h.modifier
  value hb := (h'.value (by rwa [h.modifier])).trans (h.value hb)
  type t ht := h'.type t (h.type t ht)

end Binding.Keeps

namespace Scope.Keeps

theorem refl (s : Scope) : s.Keeps s where
  vars _ b hb := ⟨b, hb, .refl b⟩
  types _ _ ht := ht
  methods _ hm := hm
  getters _ hg := hg
  fulfillments _ hx := hx

theorem trans {s s' s'' : Scope} (h : s.Keeps s') (h' : s'.Keeps s'') : s.Keeps s'' where
  vars name b hb := by
    obtain ⟨b', hb', hk⟩ := h.vars name b hb
    obtain ⟨b'', hb'', hk'⟩ := h'.vars name b' hb'
    exact ⟨b'', hb'', hk.trans hk'⟩
  types name t ht := h'.types name t (h.types name t ht)
  methods key hm := h'.methods key (h.methods key hm)
  getters key hg := h'.getters key (h.getters key hg)
  fulfillments x hx := h'.fulfillments x (h.fulfillments x hx)

end Scope.Keeps

theorem Assoc.isSome_lookup_set {κ α : Type} [BEq κ] [LawfulBEq κ] {t : List (κ × α)} {k : κ}
    (k' : κ) (a : α) (h : (t.lookup k).isSome) : ((set k' a t).lookup k).isSome := by
  by_cases hk : k = k'
  · rw [hk, lookup_set_self]
    rfl
  · rwa [lookup_set_of_ne _ _ hk]

namespace Store.Keeps

variable {s s' s'' : Store}

theorem refl (s : Store) : s.Keeps s :=
  ⟨Nat.le_refl _, fun a => .refl (s.scope a)⟩

theorem trans (h : s.Keeps s') (h' : s'.Keeps s'') : s.Keeps s'' :=
  ⟨Nat.le_trans h.size h'.size, fun a => (h.scope a).trans (h'.scope a)⟩

/-- Changes to objects and arrays leave the scopes alone. -/
theorem of_scopes (h : s'.scopes = s.scopes) : s.Keeps s' where
  size := Nat.le_of_eq (by rw [h])
  scope a := by
    unfold Store.scope
    rw [h]
    exact .refl _

theorem newScope (s : Store) (env : Env) : s.Keeps (s.newScope env).2 where
  size := by rw [size_newScope]; exact Nat.le_succ _
  scope a := by rw [scope_newScope]; exact .refl _

theorem modifyScope {a : Nat} {f : Scope → Scope} (h : (s.scope a).Keeps (f (s.scope a))) :
    s.Keeps (s.modifyScope a f) where
  size := Nat.le_of_eq (size_modifyScope a f).symm
  scope b := by
    by_cases hb : b = a
    · subst hb
      exact getD_modify (P := (s.scope b).Keeps) b (.refl _) h
    · rw [scope_modifyScope_of_ne f hb]
      exact .refl _

theorem bind {a : Nat} {name : String} {b : Binding}
    (h : ∀ b', (s.scope a).vars.lookup name = some b' → b'.Keeps b) : s.Keeps (s.bind a name b) := by
  refine modifyScope { Scope.Keeps.refl (s.scope a) with vars := fun name' b' hb' => ?_ }
  by_cases hname : name' = name
  · subst hname
    exact ⟨b, Assoc.lookup_set_self .., h b' hb'⟩
  · exact ⟨b', (Assoc.lookup_set_of_ne _ _ hname).trans hb', .refl b'⟩

theorem setType {env : Env} {name : String} (type : Ty)
    (h : (s.scope env.here).types.lookup name = none) : s.Keeps (s.setType env name type) := by
  refine modifyScope { Scope.Keeps.refl (s.scope env.here) with types := fun name' t ht => ?_ }
  by_cases hname : name' = name
  · rw [hname, h] at ht
    cases ht
  · exact (Assoc.lookup_set_of_ne _ _ hname).trans ht

theorem addMethod (s : Store) (env : Env) (struct name : String) (f : Value) :
    s.Keeps (s.addMethod env struct name f) :=
  modifyScope { Scope.Keeps.refl (s.scope env.here) with
    methods := fun _ hm => Assoc.isSome_lookup_set _ _ hm }

theorem addGetter (s : Store) (env : Env) (struct name : String) (f : Value) :
    s.Keeps (s.addGetter env struct name f) :=
  modifyScope { Scope.Keeps.refl (s.scope env.here) with
    getters := fun _ hg => Assoc.isSome_lookup_set _ _ hg }

theorem addFulfillment (s : Store) (env : Env) (struct contract : String) :
    s.Keeps (s.addFulfillment env struct contract) := by
  refine modifyScope ?_
  split
  · exact .refl _
  · exact { Scope.Keeps.refl (s.scope env.here) with
      fulfillments := fun _ hx => List.mem_cons_of_mem _ hx }

end Store.Keeps

/-- A name is declared only where it is free. -/
theorem Store.declaration_free {s : Store} {env : Env} {name : String} {v : Value}
    {modifier : Modifier} {type : Option Ty} {b : Binding}
    (h : s.declaration env name v modifier type = .ok b) :
    (s.scope env.here).vars.lookup name = none := by
  unfold declaration at h
  split at h
  · cases h
  · exact Option.not_isSome_iff_eq_none.1 ‹_›

theorem Store.typeName_free {s : Store} {env : Env} {name : String}
    (h : s.checkTypeName env name = .ok ()) : (s.scope env.here).types.lookup name = none := by
  unfold checkTypeName at h
  split at h
  · cases h
  · exact Option.not_isSome_iff_eq_none.1 ‹_›

theorem Store.mutable_of_checkMutable {s : Store} {env : Env} {name : String} {b : Binding}
    (h : s.checkMutable env name = .ok ()) (hb : s.binding? env name = some b) :
    b.modifier = .mutable := by
  unfold checkMutable at h
  rw [hb] at h
  cases hm : b.modifier with
  | mutable => rfl
  | constant | final => simp [hm] at h

/-- An assignment is made in place of a mutable binding, whose type it keeps. -/
theorem Store.assignment_keeps {s : Store} {env : Env} {name : String} {v : Value} {a : Nat}
    {b : Binding} (h : s.assignment env name v = .ok (a, b)) :
    ∃ b', (s.scope a).vars.lookup name = some b' ∧ b'.Keeps b := by
  obtain ⟨_, hmutable, h⟩ := ok_of_bind h
  split at h
  · rename_i address b' howner hbinding
    have hb' : b'.modifier = .mutable := mutable_of_checkMutable hmutable hbinding
    have hlookup := lookup_of_owner howner hbinding
    split at h
    · rename_i htype
      cases h
      refine ⟨b', hlookup, rfl, fun hb => absurd hb' hb, fun t ht => ?_⟩
      rw [htype] at ht
      cases ht
    · rename_i type htype
      split at h
      · cases h
      · cases h
        exact ⟨b', hlookup, rfl, fun hb => absurd hb' hb, fun t ht => htype.symm.trans ht⟩
  · cases h

/-- Every change that evaluation makes to a store lets it grow. -/
theorem Change.keeps {law : CodeLaw} {s s' : Store} {event : Event} (h : Change law s event s') :
    s.Keeps s' := by
  cases h with
  | scope env => exact .newScope s env
  | object _ _ _ | made _ _ _ _ | array _ | property _ _ | element _ _ => exact .of_scopes rfl
  | declare _ _ h =>
    refine .bind fun b' hb' => ?_
    rw [Store.declaration_free h] at hb'
    cases hb'
  | assign _ h =>
    obtain ⟨b', hb', hkeeps⟩ := Store.assignment_keeps h
    refine .bind fun b hb => ?_
    cases hb'.symm.trans hb
    exact hkeeps
  | type _ h => exact .setType _ (Store.typeName_free h)
  | method _ => exact .addMethod s _ _ _ _
  | getter _ => exact .addGetter s _ _ _ _
  | fulfillment => exact .addFulfillment s _ _ _

end Sable
