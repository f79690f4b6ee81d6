import Sable.Proofs.Runs.Sessions
import Sable.Proofs.Store.Scopes

/-!
# Declarations are made as a whole

`AllOrNothing`: an action does what a function says of the store, or it fails and every scope is as it
was, at all moments. So are declarations and assignments of variables, types and fulfillments, since all
that can fail comes before the first change to a scope in use. Members of a struct are evaluated in a
scope of their own.
-/

namespace Sable

/-- On `m'` the context is that of `m`, and so are all objects, arrays and scopes of `m`. -/
structure Machine.Intact (m m' : Machine) : Prop where
  context : m'.context = m.context
  objects : m'.store.objects = m.store.objects
  arrays : m'.store.arrays = m.store.arrays
  size : m.store.scopes.size ≤ m'.store.scopes.size
  scope : ∀ a < m.store.scopes.size, m'.store.scope a = m.store.scope a

/-- If the action fails, the machine is intact, and so it was at every moment that an observer was
shown. In a scope that exists, the action does what `f` does to the store. -/
structure AllOrNothing {α : Type} (env : Env) (e : Action α)
    (f : Store → Except Fault (α × Store)) : Prop where
  failed : ∀ (ω : Type) [Observer ω] (m m' : Machine) (w w' : ω) (fault : Fault),
    e ω m w = .failed fault m' w' →
      m.Intact m' ∧ ∃ h : List Moment, w' = h.foldl Observer.see w ∧ ∀ x ∈ h, m.Intact x.machine
  answered : ∀ (ω : Type) [Observer ω] (m : Machine) (w : ω), env.here < m.store.scopes.size →
    match f m.store with
    | .ok (a, s) => ∃ m' w', e ω m w = .done a m' w' ∧ Machine.Intact { m with store := s } m'
    | .error fault => ∃ m' w', e ω m w = .failed fault m' w'

namespace Machine.Intact

variable {m m' m'' : Machine}

theorem refl (m : Machine) : m.Intact m :=
  ⟨rfl, rfl, rfl, Nat.le_refl _, fun _ _ => rfl⟩

theorem newScope (m : Machine) (env : Env) :
    m.Intact { m with store := (m.store.newScope env).2 } where
  context := rfl
  objects := rfl
  arrays := rfl
  size := by
    show _ ≤ (m.store.newScope env).2.scopes.size
    rw [Store.size_newScope]
    omega
  scope a _ := Store.scope_newScope m.store env a

/-- A change to a scope that was not there before. -/
theorem modifyScope (h : m.Intact m') {a : Nat} (ha : m.store.scopes.size ≤ a) (f : Scope → Scope) :
    m.Intact { m' with store := m'.store.modifyScope a f } where
  context := h.context
  objects := h.objects
  arrays := h.arrays
  size := by
    show _ ≤ (m'.store.modifyScope a f).scopes.size
    rw [Store.size_modifyScope]
    exact h.size
  scope b hb := by
    have hne : b ≠ a := by omega
    exact (Store.scope_modifyScope_of_ne f hne).trans (h.scope b hb)

/-- The same change to a scope on both sides. -/
theorem modifyBoth (h : m.Intact m') {a : Nat} (ha : a < m.store.scopes.size) (f : Scope → Scope) :
    Machine.Intact { m with store := m.store.modifyScope a f }
      { m' with store := m'.store.modifyScope a f } where
  context := h.context
  objects := h.objects
  arrays := h.arrays
  size := by
    show (m.store.modifyScope a f).scopes.size ≤ (m'.store.modifyScope a f).scopes.size
    rw [Store.size_modifyScope, Store.size_modifyScope]
    exact h.size
  scope b hb := by
    show (m'.store.modifyScope a f).scope b = (m.store.modifyScope a f).scope b
    have hb' : b < m.store.scopes.size := by
      have hsize : b < (m.store.modifyScope a f).scopes.size := hb
      rwa [Store.size_modifyScope] at hsize
    by_cases hba : b = a
    · subst hba
      have hlt : b < m'.store.scopes.size := Nat.lt_of_lt_of_le ha h.size
      rw [Store.scope_modifyScope_self f hlt, Store.scope_modifyScope_self f ha, h.scope b ha]
    · rw [Store.scope_modifyScope_of_ne f hba, Store.scope_modifyScope_of_ne f hba, h.scope b hb']

end Machine.Intact

namespace AllOrNothing

variable {α β : Type} {env : Env}

/-- Where the course of the action is known. -/
theorem of_course {e : Action α} {f : Store → Except Fault (α × Store)}
    (h : ∀ m, (∃ fault m' h, Course e m (.failed fault m' ()) h ∧ m.Intact m' ∧
        (∀ x ∈ h, m.Intact x.machine) ∧
        (env.here < m.store.scopes.size → f m.store = .error fault)) ∨
      ∃ a m' h, Course e m (.done a m' ()) h ∧ (env.here < m.store.scopes.size →
        ∃ s, f m.store = .ok (a, s) ∧ Machine.Intact { m with store := s } m')) :
    AllOrNothing env e f where
  failed ω _ m m' w w' fault he := by
    rcases h m with ⟨fault', m₁, moments, hc, hm, hmoments, -⟩ | ⟨a, m₁, moments, hc, -⟩
    · rw [hc ω w] at he
      cases he
      exact ⟨hm, moments, rfl, hmoments⟩
    · rw [hc ω w] at he
      cases he
  answered ω _ m w henv := by
    rcases h m with ⟨fault, m₁, moments, hc, -, -, hf⟩ | ⟨a, m₁, moments, hc, hdone⟩
    · rw [hf henv]
      exact ⟨m₁, _, hc ω w⟩
    · obtain ⟨s, hf, hs⟩ := hdone henv
      rw [hf]
      exact ⟨m₁, _, hc ω w, hs⟩

/-- A check, and then a single change to the store. -/
theorem of_check {c : Type} {e : Action Unit} {check : Store → Except Fault c}
    {effect : c → Store → Store} {f : Store → Except Fault Store}
    (he : ∀ (ω : Type) [Observer ω], e ω = Eval.bind (Eval.query check) fun x =>
      Eval.change (effect x))
    (hf : ∀ s, f s = (check s).map fun x => effect x s) :
    AllOrNothing env e fun s => (f s).map ((), ·) := by
  refine of_course fun m => ?_
  cases hc : check m.store with
  | error fault =>
    refine .inl ⟨fault, m, [⟨.raised fault, m⟩], fun ω _ w => ?_, .refl m, ?_, fun _ => ?_⟩
    · rw [he]
      simp only [Eval.bind, Eval.query, hc]
      rfl
    · simpa using Machine.Intact.refl m
    · rw [hf, hc]
      rfl
  | ok x =>
    let m' : Machine := { m with store := effect x m.store }
    refine .inr ⟨(), m', [⟨.changed, m'⟩], fun ω _ w => ?_, fun _ => ⟨m'.store, ?_, .refl _⟩⟩
    · rw [he]
      simp only [Eval.bind, Eval.query, hc]
      rfl
    · rw [hf, hc]
      rfl

end AllOrNothing

/-! ### Steps of a declaration -/

/-- How an evaluation that answers a question ends. -/
def Outcome.answer {α : Type} (m : Machine) : Except Fault α → Outcome Unit α
  | .ok a => .done a m ()
  | .error fault => .failed fault m ()

namespace Eval

/-- A question to the store. -/
theorem query_course {α : Type} (f : Store → Except Fault α) (m : Machine) :
    ∃ h, Course (fun ω _ => (query f : Eval ω α)) m (.answer m (f m.store)) h ∧
      ∀ x ∈ h, x.machine = m := by
  cases hf : f m.store with
  | ok a =>
    refine ⟨[], fun ω _ w => ?_, by simp⟩
    simp only [query, hf]
    rfl
  | error fault =>
    refine ⟨[⟨.raised fault, m⟩], fun ω _ w => ?_, by simp⟩
    simp only [query, hf]
    rfl

/-- A question about annotations. -/
theorem resolve_course {α : Type} (types : List TypeExpr) (f : Store → Except Fault α) (m : Machine) :
    ∃ h, Course (fun ω _ => (resolve types f : Eval ω α)) m (.answer m (f m.store)) h ∧
      ∀ x ∈ h, x.machine = m := by
  obtain ⟨h, hc, hh⟩ := query_course f m
  have hreport : Course (fun ω _ => (report (.resolving types) : Eval ω Unit)) m (.done () m ())
      [⟨.resolving types, m⟩] := fun _ _ _ => rfl
  exact ⟨⟨.resolving types, m⟩ :: h, hreport.bind hc, List.forall_mem_cons.2 ⟨rfl, hh⟩⟩

/-- Questions about the elements of a list, up to the first that fails. -/
theorem forM_resolve_course {α : Type} (types : α → List TypeExpr) (f : α → Store → Except Fault Unit)
    (xs : List α) (m : Machine) :
    ∃ h, Course (fun ω _ => (xs.forM fun x => resolve (types x) (f x) : Eval ω PUnit)) m
        (.answer m (xs.forM fun x => f x m.store)) h ∧ ∀ x ∈ h, x.machine = m := by
  induction xs with
  | nil => exact ⟨[], fun _ _ _ => rfl, by simp⟩
  | cons x xs ih =>
    obtain ⟨h, hc, hh⟩ := resolve_course (types x) (f x) m
    obtain ⟨h', hc', hh'⟩ := ih
    have hforM : (x :: xs).forM (fun x => f x m.store) =
        f x m.store >>= fun _ => xs.forM fun x => f x m.store := rfl
    rw [hforM]
    cases hx : f x m.store with
    | error fault =>
      rw [hx] at hc
      exact ⟨h, hc.bind_failed, hh⟩
    | ok u =>
      rw [hx] at hc
      refine ⟨h ++ h', hc.bind hc', fun y hy => ?_⟩
      rcases List.mem_append.1 hy with hy | hy
      · exact hh y hy
      · exact hh' y hy

/-- Changes made one after another. -/
theorem forM_change_course {α : Type} (f : α → Store → Store) (xs : List α) (m : Machine) :
    ∃ h, Course (fun ω _ => (xs.forM fun x => change (f x) : Eval ω PUnit)) m
      (.done () { m with store := xs.foldl (fun s x => f x s) m.store } ()) h := by
  induction xs generalizing m with
  | nil => exact ⟨[], fun _ _ _ => rfl⟩
  | cons x xs ih =>
    let m' : Machine := { m with store := f x m.store }
    have hx : Course (fun ω _ => (change (f x) : Eval ω Unit)) m (.done () m' ()) [⟨.changed, m'⟩] :=
      fun _ _ _ => rfl
    obtain ⟨h, hc⟩ := ih m'
    exact ⟨_, hx.bind hc⟩

end Eval

/-! ### Types -/

/-- The name of a struct is free in the new scope in which its members are evaluated. -/
theorem Store.checkTypeName_newScope (s : Store) (env : Env) (name : String) :
    (s.newScope env).2.checkTypeName (s.newScope env).1 name = .ok () := by
  have hempty : (s.newScope env).2.scope (s.newScope env).1.here = {} := by
    rw [Store.scope_newScope]
    exact Store.scope_of_size_le (Nat.le_refl _)
  unfold Store.checkTypeName
  rw [hempty]
  rfl

/-- The members of a struct are evaluated in a scope of their own, which is all that is new then. -/
theorem Eval.structDef_course (env : Env) (name : String) (params : List TypeParam)
    (fields : List FieldDecl) (span : Span) (m : Machine) :
    ∃ m' h, Course (fun ω _ => (Eval.typeDef env name params (.struct fields span) : Eval ω Ty)) m
        (.answer m' (m.store.evalTypeDef env name params (.struct fields span))) h ∧
      m.Intact m' ∧ ∀ x ∈ h, m.Intact x.machine := by
  obtain ⟨h, hc, hh⟩ := Eval.resolve_course (TypeParam.bounds params)
    (fun store => store.evalTypeParams env params) m
  have hintact : ∀ x ∈ h, m.Intact x.machine := fun x hx => hh x hx ▸ .refl m
  unfold Store.evalTypeDef
  cases hparams : m.store.evalTypeParams env params with
  | error fault =>
    rw [hparams] at hc
    exact ⟨m, h, hc.bind_failed, .refl m, hintact⟩
  | ok x =>
    rw [hparams] at hc
    -- the machine with the scope for the members, first empty and then with the name of the struct
    let inside := (m.store.newScope env).1
    let m₁ : Machine := { m with store := (m.store.newScope env).2 }
    let m₂ : Machine := { m₁ with store := m₁.store.setType inside name (.struct name x.1 []) }
    have hm₁ : m.Intact m₁ := .newScope m env
    have hm₂ : m.Intact m₂ := hm₁.modifyScope (Nat.le_refl _) _
    have hcreate : Course (fun ω _ => (Eval.create (·.newScope env) : Eval ω Env)) m
        (.done inside m₁ ()) [⟨.changed, m₁⟩] := fun _ _ _ => rfl
    have hdeclare : Course (fun ω _ => (Eval.declareType inside name (.struct name x.1 []) :
        Eval ω Unit)) m₁ (.done () m₂ ()) [⟨.changed, m₂⟩] := by
      intro ω _ w
      have hfree : m₁.store.checkTypeName inside name = .ok () :=
        m.store.checkTypeName_newScope env name
      simp only [Eval.declareType, Eval.bind, Eval.query, hfree]
      rfl
    obtain ⟨h', hc', hh'⟩ := Eval.resolve_course (fields.map (·.type))
      (fun store => store.evalFields inside x.2 fields) m₂
    have hmembers : ∀ y ∈ h ++ ([⟨.changed, m₁⟩] ++ ([⟨.changed, m₂⟩] ++ h')), m.Intact y.machine := by
      intro y hy
      simp only [List.mem_append, List.mem_singleton] at hy
      rcases hy with hy | rfl | rfl | hy
      · exact hintact y hy
      · exact hm₁
      · exact hm₂
      · exact hh' y hy ▸ hm₂
    have hstruct : m.store.evalStruct env x.2 name x.1 fields =
        m₂.store.evalFields inside x.2 fields := rfl
    show ∃ m' h, Course _ m (.answer m' (m.store.evalStruct env x.2 name x.1 fields >>= fun members =>
      Pure.pure (Ty.struct name x.1 members))) h ∧ _
    rw [hstruct]
    cases hfields : m₂.store.evalFields inside x.2 fields with
    | error fault =>
      rw [hfields] at hc'
      exact ⟨m₂, _, hc.bind (hcreate.bind (hdeclare.bind hc'.bind_failed)), hm₂, hmembers⟩
    | ok members =>
      rw [hfields] at hc'
      have hpure : Course (fun ω _ => (Pure.pure (Ty.struct name x.1 members) : Eval ω Ty)) m₂
          (.done (Ty.struct name x.1 members) m₂ ()) [] := fun _ _ _ => rfl
      refine ⟨m₂, _, hc.bind (hcreate.bind (hdeclare.bind (hc'.bind hpure))), hm₂, ?_⟩
      rwa [List.append_nil]

/-- The type that a declaration gives a name to is found without a change to anything that was there. -/
theorem Eval.typeDef_course (env : Env) (name : String) (params : List TypeParam)
    (definition : TypeExpr) (m : Machine) :
    ∃ m' h, Course (fun ω _ => (Eval.typeDef env name params definition : Eval ω Ty)) m
        (.answer m' (m.store.evalTypeDef env name params definition)) h ∧
      m.Intact m' ∧ ∀ x ∈ h, m.Intact x.machine := by
  cases definition with
  | struct fields span => exact Eval.structDef_course env name params fields span m
  | _ =>
    unfold Eval.typeDef
    obtain ⟨h, hc, hh⟩ := Eval.resolve_course _ (fun store => store.evalTypeDef env name params _) m
    exact ⟨m, h, hc, .refl m, fun x hx => hh x hx ▸ .refl m⟩

theorem Store.checkTypeName_congr {s s' : Store} {env : Env} (name : String)
    (h : s'.scope env.here = s.scope env.here) :
    s'.checkTypeName env name = s.checkTypeName env name := by
  unfold Store.checkTypeName
  rw [h]

/-- A declaration of a type is done as a whole or not at all, as `Store.declareTypeDef` says. -/
theorem Eval.typeDecl_allOrNothing (cfg : Config) (fuel : Nat) (env : Env) (name : Name)
    (params : List TypeParam) (definition : TypeExpr) :
    AllOrNothing env (fun ω _ => (Eval.stmt cfg (fuel + 1) env (.typeDecl name params definition) :
      Eval ω Flow)) fun s => (s.declareTypeDef env name.text params definition).map fun x =>
        (.normal (.type x.1), x.2) := by
  refine .of_course fun m => ?_
  obtain ⟨m₁, h, hc, hm₁, hh⟩ := Eval.typeDef_course env name.text params definition m
  unfold Store.declareTypeDef Store.declareType
  cases htype : m.store.evalTypeDef env name.text params definition with
  | error fault =>
    rw [htype] at hc
    exact .inl ⟨fault, m₁, h, hc.bind_failed, hm₁, hh, fun _ => rfl⟩
  | ok type =>
    rw [htype] at hc
    obtain ⟨h', hc', hh'⟩ := Eval.query_course (fun store => store.checkTypeName env name.text) m₁
    -- the definition leaves the scope alone in which the name is checked
    have hcheck (henv : env.here < m.store.scopes.size) :
        m.store.checkTypeName env name.text = m₁.store.checkTypeName env name.text :=
      (Store.checkTypeName_congr name.text (hm₁.scope env.here henv)).symm
    cases hname : m₁.store.checkTypeName env name.text with
    | error fault =>
      rw [hname] at hc' hcheck
      have hdeclare : Course (fun ω _ => (Eval.declareType env name.text type : Eval ω Unit)) m₁
          (.failed fault m₁ ()) h' := hc'.bind_failed
      refine .inl ⟨fault, m₁, h ++ h', hc.bind hdeclare.bind_failed, hm₁, fun x hx => ?_,
        fun henv => ?_⟩
      · rcases List.mem_append.1 hx with hx | hx
        · exact hh x hx
        · exact hh' x hx ▸ hm₁
      · show Except.map _ (m.store.checkTypeName env name.text >>= _ >>= _) = _
        rw [hcheck henv]
        rfl
    | ok u =>
      rw [hname] at hc' hcheck
      let m₂ : Machine := { m₁ with store := m₁.store.setType env name.text type }
      have hchange : Course (fun ω _ => (Eval.change fun store => store.setType env name.text type :
          Eval ω Unit)) m₁ (.done () m₂ ()) [⟨.changed, m₂⟩] := fun _ _ _ => rfl
      have hdeclare : Course (fun ω _ => (Eval.declareType env name.text type : Eval ω Unit)) m₁
          (.done () m₂ ()) (h' ++ [⟨.changed, m₂⟩]) := hc'.bind hchange
      have hpure : Course (fun ω _ => (Pure.pure (.normal (.type type)) : Eval ω Flow)) m₂
          (.done (.normal (.type type)) m₂ ()) [] := fun _ _ _ => rfl
      refine .inr ⟨.normal (.type type), m₂, _, hc.bind (hdeclare.bind hpure), fun henv => ?_⟩
      refine ⟨m.store.setType env name.text type, ?_, hm₁.modifyBoth henv _⟩
      show Except.map _ (m.store.checkTypeName env name.text >>= _ >>= _) = _
      rw [hcheck henv]
      rfl

/-! ### Fulfillments -/

/-- All that a fulfillment asks is asked before it records anything. -/
theorem Eval.fulfill_course (env : Env) (contract target : String) (methods : List Function)
    (getters : List Getter) (m : Machine) :
    match m.store.fulfill env contract target methods getters with
    | .error fault => ∃ h, Course (fun ω _ => (Eval.fulfill env contract target methods getters :
        Eval ω Unit)) m (.failed fault m ()) h ∧ ∀ x ∈ h, x.machine = m
    | .ok s => ∃ h, Course (fun ω _ => (Eval.fulfill env contract target methods getters :
        Eval ω Unit)) m (.done () { m with store := s } ()) h := by
  have happend {h h' : List Moment} (hh : ∀ x ∈ h, x.machine = m) (hh' : ∀ x ∈ h', x.machine = m) :
      ∀ x ∈ h ++ h', x.machine = m := fun x hx => (List.mem_append.1 hx).elim (hh x) (hh' x)
  -- three questions, none of which changes the machine
  obtain ⟨h₁, hc₁, hh₁⟩ := Eval.query_course (fun store => store.contractMembers env contract) m
  obtain ⟨h₂, hc₂, hh₂⟩ := Eval.query_course (fun store => store.structTag env target) m
  unfold Store.fulfill
  cases hmembers : m.store.contractMembers env contract with
  | error fault =>
    rw [hmembers] at hc₁
    exact ⟨h₁, hc₁.bind_failed, hh₁⟩
  | ok members =>
    rw [hmembers] at hc₁
    cases htag : m.store.structTag env target with
    | error fault =>
      rw [htag] at hc₂
      exact ⟨h₁ ++ h₂, hc₁.bind hc₂.bind_failed, happend hh₁ hh₂⟩
    | ok tag =>
      rw [htag] at hc₂
      obtain ⟨h₃, hc₃, hh₃⟩ := Eval.forM_resolve_course
        (fun member => Store.givenAnnotations methods getters member.name)
        (fun member store => store.checkMember env contract target methods getters member) members m
      cases hcheck : members.forM (m.store.checkMember env contract target methods getters) with
      | error fault =>
        rw [hcheck] at hc₃
        simp only [Bind.bind, Except.bind, hcheck]
        exact ⟨h₁ ++ (h₂ ++ h₃), hc₁.bind (hc₂.bind hc₃.bind_failed),
          happend hh₁ (happend hh₂ hh₃)⟩
      | ok u =>
        rw [hcheck] at hc₃
        simp only [Bind.bind, Except.bind, hcheck]
        -- from here on nothing can fail
        obtain ⟨h₄, hc₄⟩ := Eval.forM_change_course
          (fun f store => store.addMethod env tag f.name.text (.function ⟨f, env⟩)) methods m
        obtain ⟨h₅, hc₅⟩ := Eval.forM_change_course
          (fun g store => store.addGetter env tag g.name.text (.function ⟨g.toFunction, env⟩)) getters
          { m with store := _ }
        have hlast (m' : Machine) : Course (fun ω _ => (Eval.change (·.addFulfillment env tag contract) :
            Eval ω Unit)) m' (.done () { m' with store := m'.store.addFulfillment env tag contract } ())
            [⟨.changed, { m' with store := m'.store.addFulfillment env tag contract }⟩] :=
          fun _ _ _ => rfl
        exact ⟨_, hc₁.bind (hc₂.bind (hc₃.bind (hc₄.bind (hc₅.bind (hlast _)))))⟩

/-- A fulfillment is done as a whole or not at all, as `Store.fulfill` says. -/
theorem Eval.fulfill_allOrNothing (cfg : Config) (fuel : Nat) (env : Env) (contract target : Name)
    (methods : List Function) (getters : List Getter) :
    AllOrNothing env (fun ω _ => (Eval.stmt cfg (fuel + 1) env
      (.fulfill contract target methods getters) : Eval ω Flow)) fun s =>
        (s.fulfill env contract.text target.text methods getters).map (.normal .nothing, ·) := by
  refine .of_course fun m => ?_
  have hcourse := Eval.fulfill_course env contract.text target.text methods getters m
  cases hf : m.store.fulfill env contract.text target.text methods getters with
  | error fault =>
    rw [hf] at hcourse
    obtain ⟨h, hc, hh⟩ := hcourse
    exact .inl ⟨fault, m, h, hc.bind_failed, .refl m, fun x hx => hh x hx ▸ .refl m, fun _ => rfl⟩
  | ok s =>
    rw [hf] at hcourse
    obtain ⟨h, hc⟩ := hcourse
    have hpure (m' : Machine) : Course (fun ω _ => (Pure.pure (.normal .nothing) : Eval ω Flow)) m'
        (.done (.normal .nothing) m' ()) [] := fun _ _ _ => rfl
    exact .inr ⟨.normal .nothing, { m with store := s }, _, hc.bind (hpure _), fun _ =>
      ⟨s, rfl, .refl _⟩⟩

/-- Every way to declare or assign leaves all scopes as they were if it fails, and does what the
function of the store says otherwise: a variable, an assignment, a type, the declaration of a type of
any form with any parameters, and a fulfillment. -/
theorem Eval.declarations_allOrNothing (cfg : Config) (fuel : Nat) (env : Env) :
    (∀ name v modifier type, AllOrNothing env
      (fun ω _ => (Eval.declare env name v modifier type : Eval ω Unit))
      fun s => (s.declare env name v modifier type).map ((), ·)) ∧
    (∀ name v, AllOrNothing env (fun ω _ => (Eval.assign env name v : Eval ω Unit))
      fun s => (s.assign env name v).map ((), ·)) ∧
    (∀ name type, AllOrNothing env (fun ω _ => (Eval.declareType env name type : Eval ω Unit))
      fun s => (s.declareType env name type).map ((), ·)) ∧
    (∀ name params definition, AllOrNothing env
      (fun ω _ => (Eval.stmt cfg (fuel + 1) env (.typeDecl name params definition) : Eval ω Flow))
      fun s => (s.declareTypeDef env name.text params definition).map fun x =>
        (.normal (.type x.1), x.2)) ∧
    ∀ contract target methods getters, AllOrNothing env
      (fun ω _ => (Eval.stmt cfg (fuel + 1) env (.fulfill contract target methods getters) :
        Eval ω Flow))
      fun s => (s.fulfill env contract.text target.text methods getters).map (.normal .nothing, ·) := by
  refine ⟨fun name v modifier type => ?_, fun name v => ?_, fun name type => ?_,
    Eval.typeDecl_allOrNothing cfg fuel env, Eval.fulfill_allOrNothing cfg fuel env⟩
  · refine .of_check (fun _ _ => rfl) fun s => ?_
    unfold Store.declare
    cases s.declaration env name v modifier type <;> rfl
  · refine .of_check (fun _ _ => rfl) fun s => ?_
    unfold Store.assign
    cases s.assignment env name v <;> rfl
  · refine .of_check (fun _ _ => rfl) fun s => ?_
    unfold Store.declareType
    cases s.checkTypeName env name <;> rfl

/-- A struct with a member of its own type, and one of a type that is not declared. -/
def unknownMember : Stmt :=
  .typeDecl ⟨"Bad", .nowhere⟩ [] (.struct [⟨⟨"next", .nowhere⟩, .named ⟨"Bad", .nowhere⟩, true⟩,
    ⟨⟨"x", .nowhere⟩, .named ⟨"Missing", .nowhere⟩, false⟩] .nowhere)

/-- The declaration fails after the scope for the members has been made, in which the struct has its
name. Outside it the name stands for nothing. -/
theorem unknownMember_intact :
    let cfg : Config := { file := "main" }
    let s := Session.start
    ∃ fault m', Eval.stmt cfg 1 s.globals unknownMember s.machine () = .failed fault m' () ∧
      s.store.scopes.size < m'.store.scopes.size ∧ s.machine.Intact m' ∧
      m'.store.type? s.globals "Bad" = none := by
  intro cfg s
  obtain ⟨-, -, -, htype, -⟩ := Eval.declarations_allOrNothing cfg 0 s.globals
  have hrun : (match Eval.stmt cfg 1 s.globals unknownMember s.machine () with
      | .failed _ m' _ => decide (s.store.scopes.size < m'.store.scopes.size ∧
          (m'.store.type? s.globals "Bad").isNone)
      | _ => false) = true := by decide +kernel
  split at hrun
  · rename_i fault m' _ hfailed
    obtain ⟨hsize, hnone⟩ := of_decide_eq_true hrun
    have hintact : s.machine.Intact m' := ((htype _ _ _).failed Unit _ _ _ _ _ hfailed).1
    exact ⟨fault, m', hfailed, hsize, hintact, Option.isNone_iff_eq_none.1 hnone⟩
  · cases hrun

end Sable
