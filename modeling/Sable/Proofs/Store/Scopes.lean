import Sable.Store.Bindings

/-!
# Scopes of a store

Equations for `Store.scope` and for lookups after each operation on a store.
-/

namespace Sable

namespace Store

variable {s : Store} {env : Env}

theorem scope_of_size_le {a : Nat} (h : s.scopes.size ≤ a) : s.scope a = {} := by
  simp [scope, Nat.not_lt.2 h]

@[simp] theorem scope_newScope (s : Store) (env : Env) (a : Nat) :
    (s.newScope env).2.scope a = s.scope a := by
  by_cases h : a = s.scopes.size
  · subst h
    rw [scope_of_size_le (Nat.le_refl _)]
    simp [scope, newScope]
  · simp [scope, newScope, Array.getElem?_push, h]

theorem scope_modifyScope_self {a : Nat} (f : Scope → Scope) (h : a < s.scopes.size) :
    (s.modifyScope a f).scope a = f (s.scope a) := by
  simp [scope, modifyScope, Array.getElem_modify, h]

theorem scope_modifyScope_of_ne {a b : Nat} (f : Scope → Scope) (h : b ≠ a) :
    (s.modifyScope a f).scope b = s.scope b := by
  simp [scope, modifyScope, Array.getElem?_modify, Ne.symm h]

theorem size_modifyScope (a : Nat) (f : Scope → Scope) :
    (s.modifyScope a f).scopes.size = s.scopes.size := by
  simp [modifyScope]

theorem size_newScope : (s.newScope env).2.scopes.size = s.scopes.size + 1 := by
  simp [newScope]

/-! ### Names -/

/-- A new scope hides nothing. -/
theorem lookup_newScope (s : Store) (env : Env) (name : String) :
    (s.newScope env).2.lookup (s.newScope env).1 name = s.lookup env name := by
  have hfresh : (s.scope s.scopes.size).vars.lookup name = none := by
    rw [scope_of_size_le (Nat.le_refl _)]
    rfl
  have hpath : (s.newScope env).1.path = s.scopes.size :: env.path := rfl
  unfold lookup binding?
  simp only [scope_newScope, hpath, List.findSome?_cons, hfresh]

theorem lookup_outside_newScope (s : Store) (inside env : Env) (name : String) :
    (s.newScope inside).2.lookup env name = s.lookup env name := by
  unfold lookup binding?
  simp only [scope_newScope]

theorem lookup_bind_self {name : String} {b : Binding} (h : env.here < s.scopes.size) :
    (s.bind env.here name b).lookup env name = .ok b.value := by
  unfold lookup binding? Env.path bind
  rw [List.findSome?_cons, scope_modifyScope_self _ h, Assoc.lookup_set_self]

theorem lookup_bind_of_ne {a : Nat} {name name' : String} {b : Binding} (h : name' ≠ name) :
    (s.bind a name b).lookup env name' = s.lookup env name' := by
  have hscope (x : Nat) : ((s.bind a name b).scope x).vars.lookup name' =
      (s.scope x).vars.lookup name' := by
    by_cases hx : x = a
    · subst hx
      by_cases hlt : x < s.scopes.size
      · rw [bind, scope_modifyScope_self _ hlt, Assoc.lookup_set_of_ne _ _ h]
      · rw [scope_of_size_le (by rw [bind, size_modifyScope]; exact Nat.not_lt.1 hlt),
          scope_of_size_le (Nat.not_lt.1 hlt)]
    · rw [bind, scope_modifyScope_of_ne _ hx]
  unfold lookup binding?
  simp only [hscope]

/-- The scope that owns a name holds what the name stands for. -/
theorem lookup_of_owner {a : Nat} {name : String} {b : Binding} (ha : s.owner? env name = some a)
    (hb : s.binding? env name = some b) : (s.scope a).vars.lookup name = some b := by
  unfold owner? at ha
  unfold binding? at hb
  generalize env.path = path at ha hb
  induction path with
  | nil => cases ha
  | cons x path ih =>
    rw [List.find?_cons] at ha
    rw [List.findSome?_cons] at hb
    cases hx : (s.scope x).vars.lookup name with
    | some b' =>
      rw [hx] at ha hb
      cases ha
      cases hb
      exact hx
    | none =>
      rw [hx] at ha hb
      exact ih ha hb

end Store

end Sable
