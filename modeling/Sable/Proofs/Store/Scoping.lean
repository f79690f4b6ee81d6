import Sable.Proofs.Store.Growth

/-!
# Names are scoped lexically

`Resolves`: a name belongs to the nearest scope at or above that binds it. `Rebinds`: giving a name a
value changes its entry in one scope. Every other name, and the same name where it resolves to another
scope, is found as before, in every store of a `Forest`.
-/

namespace Sable

namespace Store

variable {s s' : Store} {env t : Env} {name n : String} {v : Value} {a : Nat} {b : Binding}

/-! ### The nearest scope -/

/-- The nearest scope at or above the given one that binds the name is the one at the address. -/
def Resolves (s : Store) (env : Env) (name : String) (a : Nat) : Prop :=
  ∃ inner outer, env.path = inner ++ a :: outer ∧ ((s.scope a).vars.lookup name).isSome ∧
    ∀ x ∈ inner, (s.scope x).vars.lookup name = none

theorem owner?_eq_some : s.owner? env name = some a ↔ s.Resolves env name a := by
  rw [owner?, List.find?_eq_some_iff_append]
  constructor
  · rintro ⟨hbinds, inner, outer, hpath, hinner⟩
    refine ⟨inner, outer, hpath, hbinds, fun x hx => ?_⟩
    simpa using hinner x hx
  · rintro ⟨inner, outer, hpath, hbinds, hinner⟩
    refine ⟨hbinds, inner, outer, hpath, fun x hx => ?_⟩
    simp [hinner x hx]

theorem Resolves.binding? (h : s.Resolves env name a) :
    s.binding? env name = (s.scope a).vars.lookup name := by
  obtain ⟨inner, outer, hpath, hbinds, hinner⟩ := h
  obtain ⟨b, hb⟩ := Option.isSome_iff_exists.1 hbinds
  rw [hb]
  exact List.findSome?_eq_some_iff.2 ⟨inner, a, outer, hpath, hb, hinner⟩

theorem Resolves.lookup (h : s.Resolves env name a) (hb : (s.scope a).vars.lookup name = some b) :
    s.lookup env name = .ok b.value := by
  unfold Store.lookup
  rw [h.binding?, hb]

/-! ### One entry changes -/

/-- The two stores differ in the entry of one name in one scope, which is `b` in the second. -/
structure Rebinds (s s' : Store) (a : Nat) (name : String) (b : Binding) : Prop where
  size : s'.scopes.size = s.scopes.size
  vars : ∀ x n, (s'.scope x).vars.lookup n =
    if x = a ∧ n = name then some b else (s.scope x).vars.lookup n
  others : ∀ x, s'.scope x = { s.scope x with vars := (s'.scope x).vars }
  objects : s'.objects = s.objects
  arrays : s'.arrays = s.arrays

theorem rebinds_bind (h : a < s.scopes.size) : s.Rebinds (s.bind a name b) a name b where
  size := size_modifyScope a _
  vars x n := by
    by_cases hx : x = a
    · subst hx
      rw [bind, scope_modifyScope_self _ h]
      by_cases hn : n = name
      · subst hn
        simpa using Assoc.lookup_set_self n b _
      · simpa [hn] using Assoc.lookup_set_of_ne b _ hn
    · simp [bind, scope_modifyScope_of_ne _ hx, hx]
  others x := by
    by_cases hx : x = a
    · subst hx
      rw [bind, scope_modifyScope_self _ h]
    · rw [bind, scope_modifyScope_of_ne _ hx]
  objects := rfl
  arrays := rfl

namespace Rebinds

variable (h : s.Rebinds s' a name b)
include h

theorem lookup_changed (ht : s'.Resolves t name a) : s'.lookup t name = .ok b.value :=
  ht.lookup (by simp [h.vars])

/-- The same scopes are asked in the same order, and the changed one only where the name does not
stand for its entry. -/
theorem lookup_unchanged (ht : ¬ (n = name ∧ s'.Resolves t name a)) :
    s'.lookup t n = s.lookup t n := by
  suffices hpath : s'.binding? t n = s.binding? t n by
    unfold Store.lookup
    rw [hpath]
  unfold Store.binding?
  by_cases hn : n = name
  · subst hn
    -- some scope further in binds the name first
    have hfirst : ∀ inner outer, t.path = inner ++ a :: outer →
        ∃ x ∈ inner, (s'.scope x).vars.lookup n ≠ none := by
      intro inner outer hpath
      by_cases hbound : ∃ x, x ∈ inner ∧ (s'.scope x).vars.lookup n ≠ none
      · exact hbound
      · refine absurd ⟨rfl, inner, outer, hpath, by simp [h.vars], fun x hx => ?_⟩ ht
        exact Decidable.not_not.1 fun hx' => hbound ⟨x, hx, hx'⟩
    generalize t.path = path at hfirst ⊢
    induction path with
    | nil => rfl
    | cons x path ih =>
      have hx : x ≠ a := by
        rintro rfl
        obtain ⟨y, hy, -⟩ := hfirst [] path rfl
        exact absurd hy List.not_mem_nil
      have hsame : (s'.scope x).vars.lookup n = (s.scope x).vars.lookup n := by simp [h.vars, hx]
      rw [List.findSome?_cons, List.findSome?_cons, hsame]
      cases hb : (s.scope x).vars.lookup n with
      | some b' => rfl
      | none =>
        refine ih fun inner outer hpath => ?_
        obtain ⟨y, hy, hbound⟩ := hfirst (x :: inner) outer (by rw [hpath]; rfl)
        rcases List.mem_cons.1 hy with rfl | hy
        · exact absurd (hsame.trans hb) hbound
        · exact ⟨y, hy, hbound⟩
  · simp only [h.vars, hn, and_false, if_false]

/-- Where the name was bound before, it is found in the same scopes as before. -/
theorem resolves_iff (hbound : ((s.scope a).vars.lookup name).isSome) {x : Nat} :
    s'.Resolves t n x ↔ s.Resolves t n x := by
  have hsome (y : Nat) :
      ((s'.scope y).vars.lookup n).isSome = ((s.scope y).vars.lookup n).isSome := by
    rw [h.vars]
    split
    · rename_i hy
      rw [hy.1, hy.2, hbound]
      rfl
    · rfl
  have hnone (y : Nat) : (s'.scope y).vars.lookup n = none ↔ (s.scope y).vars.lookup n = none := by
    rw [← Option.not_isSome_iff_eq_none, ← Option.not_isSome_iff_eq_none, hsome]
  simp only [Resolves, hsome, hnone]

end Rebinds

/-! ### Declaring and assigning -/

/-- The type recorded for a name that is given a value: the one it has, or that of the value if this
is not null. -/
def recorded (s : Store) (known : Option Ty) (v : Value) : Option Ty :=
  known.or (if v.isNull then none else some (s.typeOf v))

theorem declaration_recorded {modifier : Modifier} {type : Option Ty}
    (h : s.declaration env name v modifier type = .ok b) :
    b = ⟨v, modifier, s.recorded type v⟩ := by
  unfold declaration at h
  split at h
  · cases h
  · cases type with
    | none =>
      cases h
      rfl
    | some type =>
      dsimp only at h
      split at h
      · cases h
        rfl
      · split at h
        · cases h
        · cases h
          rfl

theorem declare_rebinds {modifier : Modifier} {type : Option Ty} (hlt : env.here < s.scopes.size)
    (h : s.declare env name v modifier type = .ok s') :
    (s.scope env.here).vars.lookup name = none ∧
      s.Rebinds s' env.here name ⟨v, modifier, s.recorded type v⟩ := by
  unfold declare at h
  split at h
  · rename_i b hb
    cases h
    refine ⟨declaration_free hb, ?_⟩
    rw [← declaration_recorded hb]
    exact rebinds_bind hlt
  · cases h

theorem assignment_recorded (h : s.assignment env name v = .ok (a, b)) :
    ∃ old, s.Resolves env name a ∧ (s.scope a).vars.lookup name = some old ∧
      b = ⟨v, old.modifier, s.recorded old.type v⟩ := by
  obtain ⟨_, -, h⟩ := ok_of_bind h
  split at h
  · rename_i address old howner hbinding
    have hold := lookup_of_owner howner hbinding
    split at h
    · rename_i htype
      cases h
      exact ⟨old, owner?_eq_some.1 howner, hold, by rw [recorded, htype]; rfl⟩
    · rename_i type htype
      split at h
      · cases h
      · cases h
        exact ⟨old, owner?_eq_some.1 howner, hold, by rw [recorded, htype]; rfl⟩
  · cases h

theorem assign_rebinds (h : s.assign env name v = .ok s') :
    ∃ a old, s.Resolves env name a ∧ (s.scope a).vars.lookup name = some old ∧
      s.Rebinds s' a name ⟨v, old.modifier, s.recorded old.type v⟩ := by
  unfold assign at h
  split at h
  · rename_i a b hb
    cases h
    obtain ⟨old, hresolves, hold, rfl⟩ := assignment_recorded hb
    have hlt : a < s.scopes.size := by
      refine Nat.lt_of_not_le fun hge => ?_
      rw [scope_of_size_le hge] at hold
      cases hold
    exact ⟨a, old, hresolves, hold, rebinds_bind hlt⟩
  · cases h

/-! ### Forests -/

/-- A store with the scopes that were handed out, after any number of operations on them. What
happens to objects and arrays meanwhile is left open. -/
inductive Forest : Store → List Env → Prop
  | empty : Forest {} []
  | root {s envs} (h : Forest s envs) : Forest s.newRoot.2 (s.newRoot.1 :: envs)
  | child {s envs env} (h : Forest s envs) (henv : env ∈ envs) :
      Forest (s.newScope env).2 ((s.newScope env).1 :: envs)
  | declare {s s' envs env name v modifier type} (h : Forest s envs) (henv : env ∈ envs)
      (hs : s.declare env name v modifier type = .ok s') : Forest s' envs
  | constant {s envs env} (h : Forest s envs) (henv : env ∈ envs) (name : String) (v : Value) :
      Forest (s.setConstant env name v) envs
  | assign {s s' envs env name v} (h : Forest s envs) (henv : env ∈ envs)
      (hs : s.assign env name v = .ok s') : Forest s' envs
  | type {s envs env} (h : Forest s envs) (henv : env ∈ envs) (name : String) (type : Ty) :
      Forest (s.setType env name type) envs
  | method {s envs env} (h : Forest s envs) (henv : env ∈ envs) (struct name : String) (f : Value) :
      Forest (s.addMethod env struct name f) envs
  | getter {s envs env} (h : Forest s envs) (henv : env ∈ envs) (struct name : String) (f : Value) :
      Forest (s.addGetter env struct name f) envs
  | fulfillment {s envs env} (h : Forest s envs) (henv : env ∈ envs) (struct contract : String) :
      Forest (s.addFulfillment env struct contract) envs
  | values {s s' envs} (h : Forest s envs) (hs : s'.scopes = s.scopes) : Forest s' envs

theorem size_declare {modifier : Modifier} {type : Option Ty}
    (h : s.declare env name v modifier type = .ok s') : s'.scopes.size = s.scopes.size := by
  unfold declare at h
  split at h
  · cases h
    exact size_modifyScope _ _
  · cases h

/-- Every scope that was handed out is in the store. -/
theorem Forest.here_lt {envs : List Env} (h : Forest s envs) :
    ∀ env ∈ envs, env.here < s.scopes.size := by
  induction h with
  | empty => simp
  | @root s envs h ih =>
    have hsize : s.newRoot.2.scopes.size = s.scopes.size + 1 := by simp [newRoot]
    rw [hsize]
    refine List.forall_mem_cons.2 ⟨Nat.lt_succ_self _, fun env henv => ?_⟩
    exact Nat.lt_succ_of_lt (ih env henv)
  | child h henv ih =>
    rw [size_newScope]
    refine List.forall_mem_cons.2 ⟨Nat.lt_succ_self _, fun env henv => ?_⟩
    exact Nat.lt_succ_of_lt (ih env henv)
  | declare h henv hs ih => rwa [size_declare hs]
  | assign h henv hs ih =>
    obtain ⟨a, old, -, -, hs⟩ := assign_rebinds hs
    rwa [hs.size]
  | constant _ _ _ _ ih | type _ _ _ _ ih | method _ _ _ _ _ ih | getter _ _ _ _ _ ih
  | fulfillment _ _ _ _ ih =>
    exact fun env henv => Nat.lt_of_lt_of_eq (ih env henv) (size_modifyScope _ _).symm
  | values h hs ih => rwa [hs]

/-- An assignment changes the entry of its name in the nearest scope that binds it, and a
declaration adds one to its own scope. A type is recorded where there was none and the value is not
null. Each scope sees the new value where the name stands for the changed entry, and everything else
is found or missed as before. -/
theorem names_lexical {envs : List Env} (h : Forest s envs) (henv : env ∈ envs) :
    (s.assign env name v = .ok s' →
      ∃ a old, s.Resolves env name a ∧ (s.scope a).vars.lookup name = some old ∧
        s.Rebinds s' a name ⟨v, old.modifier, s.recorded old.type v⟩ ∧
        (∀ t ∈ envs, ∀ n x, s'.Resolves t n x ↔ s.Resolves t n x) ∧
        ∀ t ∈ envs, ∀ n, (n = name ∧ s'.Resolves t name a → s'.lookup t n = .ok v) ∧
          (¬ (n = name ∧ s'.Resolves t name a) → s'.lookup t n = s.lookup t n)) ∧
    (∀ modifier type, s.declare env name v modifier type = .ok s' →
      (s.scope env.here).vars.lookup name = none ∧
        s.Rebinds s' env.here name ⟨v, modifier, s.recorded type v⟩ ∧
        ∀ t ∈ envs, ∀ n, (n = name ∧ s'.Resolves t name env.here → s'.lookup t n = .ok v) ∧
          (¬ (n = name ∧ s'.Resolves t name env.here) → s'.lookup t n = s.lookup t n)) := by
  constructor
  · intro hassign
    obtain ⟨a, old, hresolves, hold, hrebinds⟩ := assign_rebinds hassign
    have hbound : ((s.scope a).vars.lookup name).isSome := by
      rw [hold]
      rfl
    refine ⟨a, old, hresolves, hold, hrebinds, fun t _ n x => hrebinds.resolves_iff hbound,
      fun t _ n => ⟨?_, hrebinds.lookup_unchanged⟩⟩
    rintro ⟨rfl, ht⟩
    exact hrebinds.lookup_changed ht
  · intro modifier type hdeclare
    obtain ⟨hfree, hrebinds⟩ := declare_rebinds (h.here_lt env henv) hdeclare
    refine ⟨hfree, hrebinds, fun t _ n => ⟨?_, hrebinds.lookup_unchanged⟩⟩
    rintro ⟨rfl, ht⟩
    exact hrebinds.lookup_changed ht

/-- A name without a value in the outermost scope, two scopes inside one another there, and a third
beside them with a name of its own. -/
def shadowing : Store where
  scopes := #[⟨[("x", ⟨.null, .mutable, none⟩)], [], [], [], []⟩, {}, {},
    ⟨[("x", ⟨.text "own", .final, some (.primitive .text)⟩)], [], [], [], []⟩]

def shadowingScopes : List Env :=
  [⟨3, [0]⟩, ⟨2, [1, 0]⟩, ⟨1, [0]⟩, ⟨0, []⟩]

theorem shadowing_forest : Forest shadowing shadowingScopes := by
  have hroot : Forest _ [⟨0, []⟩] := Forest.empty.root
  have hname := hroot.declare List.mem_cons_self
    (show Store.declare _ ⟨0, []⟩ "x" .null .mutable none = .ok _ from rfl)
  have hinside : Forest _ [⟨1, [0]⟩, ⟨0, []⟩] := hname.child List.mem_cons_self
  have hdeep : Forest _ [⟨2, [1, 0]⟩, ⟨1, [0]⟩, ⟨0, []⟩] := hinside.child List.mem_cons_self
  have hbeside : Forest _ shadowingScopes := hdeep.child (show ⟨0, []⟩ ∈ _ by decide)
  exact hbeside.declare List.mem_cons_self
    (show Store.declare _ ⟨3, [0]⟩ "x" (.text "own") .final none = .ok _ from rfl)

/-- From the inmost scope the name of the outermost is given a value, which the scope beside does
not see. -/
theorem shadowing_lexical : ∃ s', shadowing.assign ⟨2, [1, 0]⟩ "x" (.text "new") = .ok s' ∧
    shadowing.Rebinds s' 0 "x" ⟨.text "new", .mutable, some (.primitive .text)⟩ ∧
    s'.lookup ⟨1, [0]⟩ "x" = .ok (.text "new") ∧ s'.lookup ⟨3, [0]⟩ "x" = .ok (.text "own") ∧
    s'.lookup ⟨3, [0]⟩ "y" = .error (.unresolvedVariable "y") := by
  obtain ⟨a, old, hresolves, hold, hrebinds, hsame, hseen⟩ :=
    (names_lexical shadowing_forest (show ⟨2, [1, 0]⟩ ∈ shadowingScopes by decide)).1
      (show shadowing.assign _ "x" (.text "new") = .ok _ from rfl)
  cases (owner?_eq_some.2 hresolves).symm.trans rfl
  cases hold
  refine ⟨_, rfl, hrebinds, ?_, ?_, ?_⟩
  · refine (hseen _ (by decide) _).1 ⟨rfl, (hsame _ (by decide) _ _).2 ?_⟩
    exact owner?_eq_some.1 rfl
  · refine (hseen _ (by decide) _).2 fun h => ?_
    cases (owner?_eq_some.2 ((hsame _ (by decide) _ _).1 h.2)).symm.trans rfl
  · exact (hseen _ (by decide) _).2 fun h => absurd h.1 (by decide)

end Store

end Sable
