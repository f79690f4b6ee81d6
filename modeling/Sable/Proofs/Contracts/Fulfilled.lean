import Sable.Proofs.Store.Growth
import Sable.Proofs.Types.Aliases

/-!
# Fulfilled contracts

What a fulfillment leaves in a scope (`Scope.register`): methods and getters under the tag of the
struct, and the pair of the tag and the contract. The contract is recorded under the name that the
fulfillment gives, and `Store.accepts` looks for the name in the type. They differ where the fulfillment
names the contract by an alias or a synonym (`UnusableBy`).
-/

namespace Sable

/-! ### What a fulfillment records -/

/-- A scope with methods and getters put under a tag, and the contract beside it. -/
def Scope.register (scope : Scope) (env : Env) (tag contract : String) (methods : List Function)
    (getters : List Getter) : Scope where
  vars := scope.vars
  types := scope.types
  methods := methods.foldl
    (fun t f => Assoc.set (tag, f.name.text) (.function ⟨f, env⟩) t) scope.methods
  getters := getters.foldl
    (fun t g => Assoc.set (tag, g.name.text) (.function ⟨g.toFunction, env⟩) t) scope.getters
  fulfillments :=
    if scope.fulfillments.contains (tag, contract) then scope.fulfillments
    else (tag, contract) :: scope.fulfillments

section

variable {α : Type} (key : α → String × String) (value : α → Value)

theorem Scope.foldl_methods (xs : List α) (scope : Scope) :
    xs.foldl (fun scope x =>
      { scope with methods := Assoc.set (key x) (value x) scope.methods }) scope =
      { scope with methods := xs.foldl (fun t x => Assoc.set (key x) (value x) t) scope.methods } := by
  induction xs generalizing scope with
  | nil => rfl
  | cons x xs ih => rw [List.foldl_cons, ih]; rfl

theorem Scope.foldl_getters (xs : List α) (scope : Scope) :
    xs.foldl (fun scope x =>
      { scope with getters := Assoc.set (key x) (value x) scope.getters }) scope =
      { scope with getters := xs.foldl (fun t x => Assoc.set (key x) (value x) t) scope.getters } := by
  induction xs generalizing scope with
  | nil => rfl
  | cons x xs ih => rw [List.foldl_cons, ih]; rfl

end

namespace Store

variable {s s' : Store} {env : Env}

theorem modifyScope_id (s : Store) (a : Nat) : s.modifyScope a (fun scope => scope) = s := by
  have hscopes : s.scopes.modify a (fun scope => scope) = s.scopes := by
    refine Array.ext (by simp) fun i hi hi' => ?_
    simp [Array.getElem_modify]
  rw [modifyScope, hscopes]

theorem modifyScope_modifyScope (s : Store) (a : Nat) (f g : Scope → Scope) :
    (s.modifyScope a f).modifyScope a g = s.modifyScope a fun scope => g (f scope) := by
  have hscopes : (s.scopes.modify a f).modify a g = s.scopes.modify a fun scope => g (f scope) := by
    refine Array.ext (by simp) fun i hi hi' => ?_
    simp only [Array.getElem_modify]
    split <;> rfl
  simp only [modifyScope, hscopes]

/-- Changes made to a scope one after another are one change. -/
theorem foldl_modifyScope {α : Type} (a : Nat) (f : α → Scope → Scope) (xs : List α) (s : Store) :
    xs.foldl (fun s x => s.modifyScope a (f x)) s =
      s.modifyScope a fun scope => xs.foldl (fun scope x => f x scope) scope := by
  induction xs generalizing s with
  | nil => exact (modifyScope_id s a).symm
  | cons x xs ih => rw [List.foldl_cons, ih, modifyScope_modifyScope]; rfl

/-- A fulfillment that succeeds has resolved both names and found every member, and all it does is to
record them. -/
theorem of_fulfill {contract target : String} {methods : List Function} {getters : List Getter}
    (h : s.fulfill env contract target methods getters = .ok s') :
    ∃ members tag, s.contractMembers env contract = .ok members ∧
      s.structTag env target = .ok tag ∧
      (∀ m ∈ members, s.checkMember env contract target methods getters m = .ok ()) ∧
      s' = s.modifyScope env.here (·.register env tag contract methods getters) := by
  obtain ⟨members, hmembers, h⟩ := ok_of_bind h
  obtain ⟨tag, htag, h⟩ := ok_of_bind h
  obtain ⟨_, hcheck, h⟩ := ok_of_bind h
  refine ⟨members, tag, hmembers, htag, forM_eq_ok.1 hcheck, ?_⟩
  cases h
  simp only [addMethod, addGetter, addFulfillment, foldl_modifyScope, modifyScope_modifyScope]
  refine congrArg (s.modifyScope env.here) (funext fun scope => ?_)
  simp only [Scope.foldl_methods, Scope.foldl_getters]
  unfold Scope.register
  split <;> rfl

section

variable (s) (env) (tag contract : String) (methods : List Function) (getters : List Getter)

/-- A fulfillment declares no type. -/
theorem type?_register (env' : Env) (name : String) :
    (s.modifyScope env.here (·.register env tag contract methods getters)).type? env' name =
      s.type? env' name := by
  have htypes (a : Nat) :
      ((s.modifyScope env.here (·.register env tag contract methods getters)).scope a).types =
        (s.scope a).types :=
    getD_modify (P := fun scope : Scope => scope.types = (s.scope a).types) env.here rfl rfl
  unfold type?
  simp only [htypes]

variable {s env}

theorem mem_fulfillments_register (henv : env.here < s.scopes.size) (a : Nat) (x : String × String) :
    x ∈ ((s.modifyScope env.here (·.register env tag contract methods getters)).scope a).fulfillments ↔
      x ∈ (s.scope a).fulfillments ∨ a = env.here ∧ x = (tag, contract) := by
  by_cases ha : a = env.here
  · subst ha
    rw [scope_modifyScope_self _ henv]
    show x ∈ (if _ then _ else _) ↔ _
    split <;> rename_i hold
    · rw [List.contains_iff_mem] at hold
      refine ⟨.inl, fun hx => ?_⟩
      rcases hx with hx | ⟨-, rfl⟩
      · exact hx
      · exact hold
    · rw [List.mem_cons, or_comm]
      simp
  · rw [scope_modifyScope_of_ne _ ha]
    simp [ha]

end

theorem fulfills_iff {struct contract : String} :
    s.fulfills env struct contract = true ↔
      ∃ a ∈ env.path, (struct, contract) ∈ (s.scope a).fulfillments := by
  simp only [fulfills, List.any_eq_true, List.contains_iff_mem]

/-- A fulfillment is recorded for its own tag and the contract as it is written, and for nothing
else. -/
theorem fulfills_register {tag contract : String} {methods : List Function} {getters : List Getter}
    (henv : env.here < s.scopes.size) {struct name : String} :
    (s.modifyScope env.here (·.register env tag contract methods getters)).fulfills env struct name =
        true ↔
      s.fulfills env struct name = true ∨ struct = tag ∧ name = contract := by
  have hhere : env.here ∈ env.path := List.mem_cons_self
  simp only [fulfills_iff, mem_fulfillments_register _ _ _ _ henv, Prod.mk.injEq]
  constructor
  · rintro ⟨a, ha, hold | ⟨-, hnew⟩⟩
    · exact .inl ⟨a, ha, hold⟩
    · exact .inr hnew
  · rintro (⟨a, ha, hold⟩ | hnew)
    · exact ⟨a, ha, .inl hold⟩
    · exact ⟨env.here, hhere, .inr ⟨rfl, hnew⟩⟩

theorem Keeps.fulfills (h : s.Keeps s') {struct contract : String}
    (hf : s.fulfills env struct contract = true) : s'.fulfills env struct contract = true := by
  rw [fulfills_iff] at hf ⊢
  obtain ⟨a, ha, hmem⟩ := hf
  exact ⟨a, ha, (h.scope a).fulfillments _ hmem⟩

/-! ### Instances where a contract is asked for -/

/-- An instance has the type of a contract, by whatever alias, if its struct is recorded for the
contract's own name. -/
theorem accepts_contract {own : String} {members : List Signature} {a : Nat} {tag : String}
    (htag : (s.object a).tag = some tag) : ∀ type : Ty, type.unaliased = .contract own members →
      s.accepts env type (.object a) = s.fulfills env tag own
  | .contract _ _, h => by
    cases h
    simp only [accepts, mismatch?, htag]
    split <;> simp_all
  | .aliased _ target, h => by
    rw [← accepts_contract htag target h]
    simp [accepts, mismatch?]
  | .primitive _, h | .struct _ _ _, h | .generic _ _, h | .union _, h | .array _, h | .param _ _, h
  | .function _ _, h => by cases h

theorem contractMembers_eq_ok {contract : String} {members : List Signature} :
    s.contractMembers env contract = .ok members ↔
      ∃ type own, s.type? env contract = some type ∧ type.unaliased = .contract own members := by
  unfold contractMembers
  cases s.type? env contract with
  | none => simp
  | some type => cases hun : type.unaliased <;> simp [hun]

end Store

/-- A fulfilled contract is usable under its name. A struct that fulfills a contract by the contract's
own name has instances that are accepted for it at once and ever after, by that name, by an alias or
by another name for the same type. By a name that is not its own, the fulfillment adds nothing. -/
theorem Store.fulfilled_usable {s s' : Store} {env : Env} {contract target : Name}
    {methods : List Function} {getters : List Getter} (henv : env.here < s.scopes.size)
    (h : s.fulfill env contract.text target.text methods getters = .ok s') :
    ∃ tag type own members, s.structTag env target.text = .ok tag ∧
      s'.evalType env [] (.named contract) = .ok type ∧ type.unaliased = .contract own members ∧
      (∀ a, (s'.object a).tag = some tag → (s'.accepts env type (.object a) = true ↔
        own = contract.text ∨ s.accepts env type (.object a) = true)) ∧
      (own = contract.text → ∀ later, s'.Keeps later → ∀ type' members' a,
        type'.unaliased = .contract own members' → (later.object a).tag = some tag →
        later.accepts env type' (.object a) = true) := by
  obtain ⟨members, tag, hmembers, htag, -, rfl⟩ := of_fulfill h
  obtain ⟨type, own, htype, hown⟩ := contractMembers_eq_ok.1 hmembers
  refine ⟨tag, type, own, members, htag, ?_, hown, ?_, ?_⟩
  · simp [evalType, type?_register, htype]
  · intro a ha
    rw [accepts_contract ha type hown, accepts_contract (s := s) ha type hown, fulfills_register henv]
    simp only [true_and, or_comm]
  · rintro rfl later hkeeps type' members' a htype' ha
    rw [accepts_contract ha type' htype']
    exact hkeeps.fulfills ((fulfills_register henv).2 (.inr ⟨rfl, rfl⟩))

/-- A name that stands nowhere in particular. -/
def Name.plain (text : String) : Name :=
  ⟨text, .nowhere⟩

/-- A method without parameters that gives a result of the given type. -/
def Function.plain (name : String) (result : TypeExpr) : Function :=
  ⟨.plain name, [], some (.plain "self"), [], some result, [], .nowhere⟩

/-- A scope with a contract and a struct, each under its own name, by an alias and by another name,
and an instance of the struct. -/
def shapes : Store :=
  let shape := Ty.contract "Shape" [.method "area" [] (.primitive .number)]
  let square := Ty.struct "Square" [] []
  { scopes := #[{ types := [("Shape", shape), ("Form", .aliased "Form" shape), ("Figure", shape),
      ("Square", square), ("Tile", .aliased "Tile" square), ("Box", square)] }]
    objects := #[⟨some "Square", [], []⟩] }

/-- The contract is fulfilled by its own name for a struct that is called by an alias, and asked for by
an alias. -/
theorem ownName_usable : ∃ s', shapes.fulfill ⟨0, []⟩ "Shape" "Tile"
      [.plain "area" (.primitive .number .nowhere)] [] = .ok s' ∧
    ∀ name ∈ ["Shape", "Form", "Figure"], ∃ type,
      s'.evalType ⟨0, []⟩ [] (.named (.plain name)) = .ok type ∧
      s'.accepts ⟨0, []⟩ type (.object 0) = true := by
  refine ⟨_, rfl, ?_⟩
  obtain ⟨tag, type, own, members, htag, htype, hown, -, husable⟩ :=
    @Store.fulfilled_usable shapes _ ⟨0, []⟩ (.plain "Shape") (.plain "Tile")
      [.plain "area" (.primitive .number .nowhere)] [] (by decide) rfl
  obtain rfl : "Square" = tag := Except.ok.inj htag
  obtain rfl : _ = type := Except.ok.inj htype
  obtain ⟨rfl, -⟩ := Ty.contract.inj hown
  simp only [List.forall_mem_cons, List.not_mem_nil, false_imp_iff, implies_true, and_true]
  exact ⟨⟨_, rfl, husable rfl _ (.refl _) _ _ 0 rfl rfl⟩, ⟨_, rfl, husable rfl _ (.refl _) _ _ 0 rfl rfl⟩,
    ⟨_, rfl, husable rfl _ (.refl _) _ _ 0 rfl rfl⟩⟩

/-- The contract is fulfilled by the given name, and the instance is not accepted for what the name
stands for. -/
def UnusableBy (name : String) : Prop :=
  ∃ s' type, shapes.fulfill ⟨0, []⟩ name "Square" [.plain "area" (.primitive .number .nowhere)] [] =
      .ok s' ∧
    s'.evalType ⟨0, []⟩ [] (.named (.plain name)) = .ok type ∧
    shapes.structTag ⟨0, []⟩ "Square" = .ok "Square" ∧ (s'.object 0).tag = some "Square" ∧
    s'.accepts ⟨0, []⟩ type (.object 0) = false

/-- By an alias of the contract, or by another name for it, a fulfillment succeeds and the instances
are not accepted. -/
theorem otherName_unusable : UnusableBy "Form" ∧ UnusableBy "Figure" :=
  ⟨⟨_, _, rfl, rfl, rfl, rfl, rfl⟩, _, _, rfl, rfl, rfl, rfl, rfl⟩

end Sable
