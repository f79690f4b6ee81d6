import Mathlib.Data.List.Forall2
import Sable.Proofs.Store.Scopes
import Sable.Session

/-!
# Stores with an idle scope

`Store.Twin n`: the second store is the first with an empty scope at the address `n`, and the scopes
from there on are `moved` by one. `Threads`: a path in the second store is one of the first with `n` put
in anywhere. Functions correspond if their paths do, and all addresses are those of scopes in the store.
-/

namespace Sable

/-- Where a scope stands after one has been put in at the address `n`. -/
def moved (n a : Nat) : Nat :=
  if a < n then a else a + 1

section

variable {n a b : Nat}

theorem moved_of_lt (h : a < n) : moved n a = a :=
  if_pos h

theorem moved_of_le (h : n ≤ a) : moved n a = a + 1 :=
  if_neg (Nat.not_lt.2 h)

theorem moved_ne (n a : Nat) : moved n a ≠ n := by
  unfold moved
  split <;> omega

theorem moved_inj : moved n a = moved n b ↔ a = b := by
  unfold moved
  split <;> split <;> omega

theorem moved_lt {size : Nat} (h : n ≤ size) : moved n a < size + 1 ↔ a < size := by
  unfold moved
  split <;> omega

end

/-- The second path is the first with the idle scope `n` put in anywhere. The addresses of the first
are below `k`. -/
inductive Threads (n k : Nat) : List Nat → List Nat → Prop
  | nil : Threads n k [] []
  | idle {path path' : List Nat} (h : Threads n k path path') : Threads n k path (n :: path')
  | cons {a : Nat} {path path' : List Nat} (ha : a < k) (h : Threads n k path path') :
      Threads n k (a :: path) (moved n a :: path')

namespace Threads

variable {n k j : Nat} {path path' : List Nat}

theorem mono (h : Threads n k path path') (hj : k ≤ j) : Threads n j path path' := by
  induction h with
  | nil => exact .nil
  | idle _ ih => exact .idle ih
  | cons ha _ ih => exact .cons (Nat.lt_of_lt_of_le ha hj) ih

theorem of_lt (h : ∀ a ∈ path, a < n) : Threads n n path path := by
  induction path with
  | nil => exact .nil
  | cons a path ih =>
    obtain ⟨ha, hpath⟩ := List.forall_mem_cons.1 h
    have hcons := (ih hpath).cons ha
    rwa [moved_of_lt ha] at hcons

theorem lt (h : Threads n k path path') : ∀ a ∈ path, a < k := by
  induction h with
  | nil => exact fun a ha => absurd ha List.not_mem_nil
  | idle _ ih => exact ih
  | cons ha _ ih => exact List.forall_mem_cons.2 ⟨ha, ih⟩

end Threads

/-! ### Environments and values -/

/-- Code in the second environment sees what code in the first does. -/
def Env.Sees (n k : Nat) (env env' : Env) : Prop :=
  Threads n k env.path env'.path

/-- Besides, both declare names in the same scope. -/
structure Env.Twin (n k : Nat) (env env' : Env) : Prop where
  here : env'.here = moved n env.here
  sees : env.Sees n k env'

inductive Value.Twin (n k : Nat) : Value → Value → Prop
  | function {f : Function} {env env' : Env} (h : env.Sees n k env') :
      Twin n k (.function ⟨f, env⟩) (.function ⟨f, env'⟩)
  | same {v : Value} (h : ∀ f, v ≠ .function f) : Twin n k v v

inductive Flow.Twin (n k : Nat) : Flow → Flow → Prop
  | normal {v v' : Value} (h : v.Twin n k v') : Twin n k (.normal v) (.normal v')
  | ret {v v' : Value} (h : v.Twin n k v') : Twin n k (.ret v) (.ret v')
  | leave (id : Nat) : Twin n k (.leave id) (.leave id)
  | skip (id : Nat) : Twin n k (.skip id) (.skip id)

/-- Tables with the same keys in the same order and with entries that correspond. -/
def Entries {κ α : Type} (R : α → α → Prop) (t t' : List (κ × α)) : Prop :=
  List.Forall₂ (fun p p' => p'.1 = p.1 ∧ R p.2 p'.2) t t'

/-! ### Stores -/

structure Binding.Twin (n k : Nat) (b b' : Binding) : Prop where
  value : b.value.Twin n k b'.value
  modifier : b'.modifier = b.modifier
  type : b'.type = b.type

structure Scope.Twin (n k : Nat) (s s' : Scope) : Prop where
  vars : Entries (Binding.Twin n k) s.vars s'.vars
  types : s'.types = s.types
  methods : Entries (Value.Twin n k) s.methods s'.methods
  getters : Entries (Value.Twin n k) s.getters s'.getters
  fulfillments : s'.fulfillments = s.fulfillments

structure Obj.Twin (n k : Nat) (o o' : Obj) : Prop where
  tag : o'.tag = o.tag
  typeArgs : o'.typeArgs = o.typeArgs
  properties : Entries (Value.Twin n k) o.properties o'.properties

/-- The second store is the first with an idle scope at the address `n`. -/
structure Store.Twin (n : Nat) (s s' : Store) : Prop where
  inside : n ≤ s.scopes.size
  scopes : s'.scopes.size = s.scopes.size + 1
  idle : s'.scope n = {}
  scope : ∀ a, (s.scope a).Twin n s.scopes.size (s'.scope (moved n a))
  objects : s'.objects.size = s.objects.size
  object : ∀ a, (s.object a).Twin n s.scopes.size (s'.object a)
  arrays : s'.arrays.size = s.arrays.size
  array : ∀ a, List.Forall₂ (Value.Twin n s.scopes.size) (s.array a).toList (s'.array a).toList

/-- Nothing but the scopes tells the two machines apart. -/
structure Machine.Twin (n : Nat) (m m' : Machine) : Prop where
  store : m.store.Twin n m'.store
  context : m'.context = m.context

/-- Both evaluations end in the same way, with results that correspond in the stores at the end. -/
inductive Outcome.Twin {ω ω' α β : Type} (n : Nat) (R : Nat → α → β → Prop) :
    Outcome ω α → Outcome ω' β → Prop
  | done {a : α} {b : β} {m m' : Machine} {w : ω} {w' : ω'} (hm : m.Twin n m')
      (h : R m.store.scopes.size a b) : Twin n R (.done a m w) (.done b m' w')
  | failed {fault : Fault} {m m' : Machine} {w : ω} {w' : ω'} (hm : m.Twin n m') :
      Twin n R (.failed fault m w) (.failed fault m' w')
  | exhausted {w : ω} {w' : ω'} : Twin n R (.exhausted w) (.exhausted w')

section

variable {n k j : Nat}

theorem Env.Sees.mono {env env' : Env} (h : env.Sees n k env') (hj : k ≤ j) : env.Sees n j env' :=
  Threads.mono h hj

theorem Env.Twin.mono {env env' : Env} (h : env.Twin n k env') (hj : k ≤ j) : env.Twin n j env' :=
  ⟨h.here, h.sees.mono hj⟩

theorem Value.Twin.mono {v v' : Value} (h : v.Twin n k v') (hj : k ≤ j) : v.Twin n j v' := by
  cases h with
  | function h => exact .function (h.mono hj)
  | same h => exact .same h

theorem Flow.Twin.mono {flow flow' : Flow} (h : flow.Twin n k flow') (hj : k ≤ j) :
    flow.Twin n j flow' := by
  cases h with
  | normal hv => exact .normal (hv.mono hj)
  | ret hv => exact .ret (hv.mono hj)
  | leave id => exact .leave id
  | skip id => exact .skip id

theorem Binding.Twin.mono {b b' : Binding} (h : b.Twin n k b') (hj : k ≤ j) : b.Twin n j b' :=
  ⟨h.value.mono hj, h.modifier, h.type⟩

/-! ### Tables -/

namespace Entries

variable {κ α : Type} {R S : α → α → Prop} {t t' : List (κ × α)}

theorem imp (h : Entries R t t') (hRS : ∀ a a', R a a' → S a a') : Entries S t t' :=
  List.Forall₂.imp (fun _ _ hp => ⟨hp.1, hRS _ _ hp.2⟩) h

theorem lookup [BEq κ] (h : Entries R t t') (key : κ) :
    Option.Rel R (t.lookup key) (t'.lookup key) := by
  induction h with
  | nil => exact .none
  | @cons p p' _ _ hp _ ih =>
    obtain ⟨x, a⟩ := p
    obtain ⟨x', a'⟩ := p'
    obtain ⟨rfl, ha⟩ : x' = x ∧ R a a' := hp
    rw [List.lookup_cons, List.lookup_cons]
    split
    · exact .some ha
    · exact ih

theorem set [BEq κ] (h : Entries R t t') (key : κ) {a a' : α} (ha : R a a') :
    Entries R (Assoc.set key a t) (Assoc.set key a' t') := by
  induction h with
  | nil => exact .cons ⟨rfl, ha⟩ .nil
  | @cons p p' _ _ hp hrest ih =>
    obtain ⟨x, b⟩ := p
    obtain ⟨x', b'⟩ := p'
    obtain ⟨rfl, hb⟩ : x' = x ∧ R b b' := hp
    unfold Assoc.set
    split
    · exact .cons ⟨rfl, ha⟩ hrest
    · exact .cons ⟨rfl, hb⟩ ih

theorem of_forall (h : ∀ p ∈ t, R p.2 p.2) : Entries R t t :=
  List.forall₂_same.2 fun p hp => ⟨rfl, h p hp⟩

/-- What is made of the entries is the same if it is so entry by entry. -/
theorem map_eq {γ : Type} {f : κ × α → γ} (h : Entries R t t') {f' : κ × α → γ}
    (hf : ∀ x a a', R a a' → f (x, a) = f' (x, a')) : t.map f = t'.map f' := by
  induction h with
  | nil => rfl
  | @cons p p' _ _ hp _ ih =>
    obtain ⟨x, b⟩ := p
    obtain ⟨x', b'⟩ := p'
    obtain ⟨rfl, hb⟩ : x' = x ∧ R b b' := hp
    rw [List.map_cons, List.map_cons, hf _ _ _ hb, ih]

end Entries

theorem Scope.Twin.mono {s s' : Scope} (h : s.Twin n k s') (hj : k ≤ j) : s.Twin n j s' where
  vars := h.vars.imp fun _ _ hb => hb.mono hj
  types := h.types
  methods := h.methods.imp fun _ _ hv => hv.mono hj
  getters := h.getters.imp fun _ _ hv => hv.mono hj
  fulfillments := h.fulfillments

theorem Scope.twin_empty : ({} : Scope).Twin n k {} :=
  ⟨.nil, rfl, .nil, .nil, rfl⟩

theorem Obj.Twin.mono {o o' : Obj} (h : o.Twin n k o') (hj : k ≤ j) : o.Twin n j o' :=
  ⟨h.tag, h.typeArgs, h.properties.imp fun _ _ hv => hv.mono hj⟩

/-! ### What is written to twin stores -/

/-- What holds of the elements of two arrays holds after corresponding elements have been changed. -/
theorem getD_modify_twin {α : Type} {R : α → α → Prop} {xs ys : Array α} {d : α} {f g : α → α}
    (hsize : ys.size = xs.size) (h : ∀ j, R (xs.getD j d) (ys.getD j d))
    (hf : ∀ x y, R x y → R (f x) (g y)) (i j : Nat) :
    R ((xs.modify i f).getD j d) ((ys.modify i g).getD j d) := by
  have hj := h j
  by_cases hlt : j < xs.size
  · have hlt' : j < ys.size := hsize ▸ hlt
    by_cases hij : i = j
    · simp [Array.getD, Array.getElem_modify, hij, hlt, hlt'] at hj ⊢
      exact hf _ _ hj
    · simpa [Array.getD, Array.getElem_modify, hij, hlt, hlt'] using hj
  · have hlt' : ¬ j < ys.size := hsize ▸ hlt
    simpa [Array.getD, hlt, hlt'] using hj

theorem getD_push_twin {α : Type} {R : α → α → Prop} {xs ys : Array α} {d x y : α}
    (hsize : ys.size = xs.size) (h : ∀ j, R (xs.getD j d) (ys.getD j d)) (hx : R x y) (j : Nat) :
    R ((xs.push x).getD j d) ((ys.push y).getD j d) := by
  have hj := h j
  simp only [Array.getD_eq_getD_getElem?, Array.getElem?_push, hsize] at hj ⊢
  by_cases hlast : j = xs.size
  · simpa [hlast] using hx
  · simpa [hlast] using hj

namespace Store.Twin

variable {s s' : Store} {env env' : Env}

theorem modifyScope (h : s.Twin n s') (a : Nat) {f f' : Scope → Scope}
    (hf : ∀ x x' : Scope, x.Twin n s.scopes.size x' → (f x).Twin n s.scopes.size (f' x')) :
    (s.modifyScope a f).Twin n (s'.modifyScope (moved n a) f') where
  inside := by rw [size_modifyScope]; exact h.inside
  scopes := by rw [size_modifyScope, size_modifyScope]; exact h.scopes
  idle := by rw [scope_modifyScope_of_ne _ (moved_ne n a).symm]; exact h.idle
  scope b := by
    rw [size_modifyScope]
    by_cases hb : b = a
    · subst hb
      have hlt := moved_lt h.inside (a := b)
      rw [← h.scopes] at hlt
      by_cases hsize : b < s.scopes.size
      · rw [scope_modifyScope_self _ hsize, scope_modifyScope_self _ (hlt.2 hsize)]
        exact hf _ _ (h.scope b)
      · -- a scope that is not there is not changed
        have hsize' := mt hlt.1 hsize
        rw [scope_of_size_le (by rw [size_modifyScope]; omega),
          scope_of_size_le (by rw [size_modifyScope]; omega)]
        exact Scope.twin_empty
    · rw [scope_modifyScope_of_ne _ hb, scope_modifyScope_of_ne _ (mt moved_inj.1 hb)]
      exact h.scope b
  objects := h.objects
  object a := by rw [size_modifyScope]; exact h.object a
  arrays := h.arrays
  array a := by rw [size_modifyScope]; exact h.array a

theorem newScope (h : s.Twin n s') (env env' : Env) :
    (s.newScope env).2.Twin n (s'.newScope env').2 where
  inside := by rw [size_newScope]; exact Nat.le_succ_of_le h.inside
  scopes := by rw [size_newScope, size_newScope, h.scopes]
  idle := by rw [scope_newScope, h.idle]
  scope a := by
    rw [scope_newScope, scope_newScope, size_newScope]
    exact (h.scope a).mono (Nat.le_succ _)
  objects := h.objects
  object a := by rw [size_newScope]; exact (h.object a).mono (Nat.le_succ _)
  arrays := h.arrays
  array a := by rw [size_newScope]; exact (h.array a).imp fun _ _ hv => hv.mono (Nat.le_succ _)

/-- The new scopes correspond, and those around them do. -/
theorem env_newScope (h : s.Twin n s') (he : env.Sees n k env') (hk : k ≤ s.scopes.size) :
    (s.newScope env).1.Twin n (s.scopes.size + 1) (s'.newScope env').1 := by
  have hnew : s'.scopes.size = moved n s.scopes.size := by rw [moved_of_le h.inside, h.scopes]
  refine ⟨hnew, ?_⟩
  show Threads n _ (s.scopes.size :: env.path) (s'.scopes.size :: env'.path)
  rw [hnew]
  exact .cons (Nat.lt_succ_self _) (he.mono (Nat.le_succ_of_le hk))

theorem newObject (h : s.Twin n s') {o o' : Obj} (ho : o.Twin n s.scopes.size o') :
    (s.newObject o).2.Twin n (s'.newObject o').2 where
  inside := h.inside
  scopes := h.scopes
  idle := h.idle
  scope := h.scope
  objects := by simp [Store.newObject, h.objects]
  object := getD_push_twin h.objects h.object ho
  arrays := h.arrays
  array := h.array

theorem newArray (h : s.Twin n s') {items items' : Array Value}
    (hi : List.Forall₂ (Value.Twin n s.scopes.size) items.toList items'.toList) :
    (s.newArray items).2.Twin n (s'.newArray items').2 where
  inside := h.inside
  scopes := h.scopes
  idle := h.idle
  scope := h.scope
  objects := h.objects
  object := h.object
  arrays := by simp [Store.newArray, h.arrays]
  array := getD_push_twin (R := fun x y : Array Value =>
    List.Forall₂ (Value.Twin n s.scopes.size) x.toList y.toList) h.arrays h.array hi

theorem setProperty (h : s.Twin n s') (a : Nat) (name : String) {v v' : Value}
    (hv : v.Twin n s.scopes.size v') : (s.setProperty a name v).Twin n (s'.setProperty a name v') where
  inside := h.inside
  scopes := h.scopes
  idle := h.idle
  scope := h.scope
  objects := by simp [Store.setProperty, h.objects]
  object := by
    refine getD_modify_twin h.objects h.object (fun o o' ho => ?_) a
    exact ⟨ho.tag, ho.typeArgs, ho.properties.set name hv⟩
  arrays := h.arrays
  array := h.array

theorem forall₂_set {α : Type} {R : α → α → Prop} {xs ys : List α} {x y : α} (h : List.Forall₂ R xs ys)
    (hx : R x y) (i : Nat) : List.Forall₂ R (xs.set i x) (ys.set i y) := by
  induction h generalizing i with
  | nil => exact .nil
  | cons hhead htail ih =>
    cases i with
    | zero => exact .cons hx htail
    | succ i => exact .cons hhead (ih i)

theorem setElement (h : s.Twin n s') (a slot : Nat) {v v' : Value} (hv : v.Twin n s.scopes.size v') :
    (s.setElement a slot v).Twin n (s'.setElement a slot v') where
  inside := h.inside
  scopes := h.scopes
  idle := h.idle
  scope := h.scope
  objects := h.objects
  object := h.object
  arrays := by simp [Store.setElement, h.arrays]
  array := by
    refine getD_modify_twin (R := fun x y : Array Value =>
      List.Forall₂ (Value.Twin n s.scopes.size) x.toList y.toList) h.arrays h.array
      (fun x y hxy => ?_) a
    rw [Array.toList_setIfInBounds, Array.toList_setIfInBounds]
    exact forall₂_set hxy hv slot

theorem bind (h : s.Twin n s') (a : Nat) (name : String) {b b' : Binding}
    (hb : b.Twin n s.scopes.size b') : (s.bind a name b).Twin n (s'.bind (moved n a) name b') :=
  h.modifyScope a fun _ _ hx =>
    ⟨hx.vars.set name hb, hx.types, hx.methods, hx.getters, hx.fulfillments⟩

section

variable (h : s.Twin n s') (he : env'.here = moved n env.here)

include h he

theorem setType (name : String) (type : Ty) :
    (s.setType env name type).Twin n (s'.setType env' name type) := by
  unfold Store.setType
  rw [he]
  exact h.modifyScope _ fun _ _ hx =>
    ⟨hx.vars, by rw [hx.types], hx.methods, hx.getters, hx.fulfillments⟩

theorem addMethod (struct name : String) {f f' : Value} (hf : f.Twin n s.scopes.size f') :
    (s.addMethod env struct name f).Twin n (s'.addMethod env' struct name f') := by
  unfold Store.addMethod
  rw [he]
  exact h.modifyScope _ fun _ _ hx =>
    ⟨hx.vars, hx.types, hx.methods.set _ hf, hx.getters, hx.fulfillments⟩

theorem addGetter (struct name : String) {f f' : Value} (hf : f.Twin n s.scopes.size f') :
    (s.addGetter env struct name f).Twin n (s'.addGetter env' struct name f') := by
  unfold Store.addGetter
  rw [he]
  exact h.modifyScope _ fun _ _ hx =>
    ⟨hx.vars, hx.types, hx.methods, hx.getters.set _ hf, hx.fulfillments⟩

theorem addFulfillment (struct contract : String) :
    (s.addFulfillment env struct contract).Twin n (s'.addFulfillment env' struct contract) := by
  unfold Store.addFulfillment
  rw [he]
  refine h.modifyScope _ fun _ _ hx => ?_
  rw [hx.fulfillments]
  split
  · exact hx
  · exact ⟨hx.vars, hx.types, hx.methods, hx.getters, rfl⟩

end

end Store.Twin

end

end Sable
