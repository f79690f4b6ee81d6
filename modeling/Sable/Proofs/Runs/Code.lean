import Sable.Proofs.Forms.Faults
import Sable.Session

/-!
# The code in a store

Functions are values, so there is code in the store. A `CodeLaw` is a condition that statements hand down
to their parts, to their expressions and annotations and to the functions and types they declare. A store
is `Lawful` if the functions and the declared types in it are, and it stays so under every `Change` that
evaluation makes to it.
-/

namespace Sable

/-- A condition on the statements that are run, the functions that are called, and, if it speaks of
them, the expressions and annotations that are evaluated, the places that calls report, the types that
are declared and the types that annotations and values have. -/
structure CodeLaw where
  stmt : Stmt → Prop
  function : Function → Prop
  expr : Expr → Prop := fun _ => True
  written : TypeExpr → Prop := fun _ => True
  site : Span → Prop := fun _ => True
  type : Ty → Prop := fun _ => True
  held : Ty → Prop := fun _ => True
  part : ∀ {s : Stmt} {x : List Enclosing × Stmt}, stmt s → x ∈ s.parts [] → stmt x.2
  declared : ∀ {s : Stmt} {f : Function}, stmt s → f ∈ s.functions → function f
  body : ∀ {f : Function} {s : Stmt}, function f → s ∈ f.body → stmt s
  used : ∀ {s : Stmt} {e : Expr}, stmt s → e ∈ s.exprs → expr e := by intros; trivial
  fallback : ∀ {f : Function} {p : Param} {e : Expr}, function f → p ∈ f.params → e ∈ p.fallback →
    expr e := by intros; trivial
  inner : ∀ {e e' : Expr}, expr e → e' ∈ e.parts → expr e' := by intros; trivial
  called : ∀ {e : Expr} {span : Span}, expr e → e.callSite? = some span → site span := by
    intros; trivial
  noted : ∀ {s : Stmt} {t : TypeExpr}, stmt s → t ∈ s.ownAnnotations → written t := by intros; trivial
  signed : ∀ {f : Function} {t : TypeExpr}, function f → t ∈ f.annotations → written t := by
    intros; trivial
  given : ∀ {e : Expr} {t : TypeExpr}, expr e → t ∈ e.annotations → written t := by intros; trivial
  primitive : ∀ p : Primitive, type (.primitive p) := by intros; trivial
  meant : ∀ {s : Store} {env : Env} {subst : Subst} {e : TypeExpr} {t : Ty},
    written e → (∀ env name t, s.type? env name = some t → type t) → (∀ p ∈ subst, held p.2) →
    s.evalType env subst e = .ok t → held t := by intros; trivial
  parameter : ∀ {name : String} {bound : Option Ty}, (∀ t ∈ bound, held t) →
    held (.param name bound) := by intros; trivial
  typed : ∀ {s : Store} (v : Value), (∀ a, ∀ t ∈ (s.object a).typeArgs, held t) →
    held (s.typeOf v) := by intros; trivial
  struct : ∀ {name : String} {params : List Bound} {members : List Member},
    (∀ p ∈ params, ∀ t ∈ p.bound, held t) → (∀ m ∈ members, held m.type) →
    type (.struct name params members) := by intros; trivial
  defined : ∀ {s : Store} {env : Env} {name : Name} {params : List TypeParam} {d : TypeExpr} {t : Ty},
    stmt (.typeDecl name params d) → (∀ env name t, s.type? env name = some t → type t) →
    (∀ fields span, d ≠ .struct fields span) → s.evalTypeDef env name.text params d = .ok t →
    type t := by intros; trivial

namespace CodeLaw

/-- The law that all code satisfies. -/
def any : CodeLaw where
  stmt _ := True
  function _ := True
  part _ _ := trivial
  declared _ _ := trivial
  body _ _ := trivial

/-- The law that `S` holds of all statements, `E` of all expressions and `T` of the annotations in them. -/
def within (S : Stmt → Prop) (E : Expr → Prop) (T : TypeExpr → Prop)
    (hS : ∀ s, S s → ∀ t ∈ s.annotations, T t) (hE : ∀ e, E e → ∀ t ∈ e.annotations, T t) :
    CodeLaw where
  stmt := Stmt.All S (Expr.All E)
  function := FunctionOf.All S (Expr.All E) T
  expr := Expr.All E
  written := T
  part h hx := h.part hx
  declared h hf := h.declared hS hf
  body h hs := h.body _ hs
  used h he := h.expr he
  fallback h hp he := h.fallbacks _ hp _ he
  inner h he := h.part he
  noted h ht := hS _ h.own _ (List.mem_append_left _ ht)
  signed h ht := h.types _ ht
  given h ht := hE _ h.own _ ht

/-- The law that all code is well-formed. -/
def wellFormed : CodeLaw :=
  within Stmt.WellMade Expr.WellMade TypeExpr.Proper (fun _ h => h.types) (fun _ h => h.types)

/-- The law allows no expression and no annotation that is ill-formed. -/
structure Strict (law : CodeLaw) : Prop where
  made : ∀ {e : Expr}, law.expr e → e.wellMade = true
  proper : ∀ {t : TypeExpr}, law.written t → t.Proper

theorem wellFormed_strict : wellFormed.Strict where
  made h := h.own.made
  proper h := h

/-- A value that is a function or a type satisfies the law. -/
def value (law : CodeLaw) : Value → Prop
  | .function f => law.function f.function
  | .type t => law.type t
  | _ => True

end CodeLaw

theorem Assoc.forall_set {κ α : Type} [BEq κ] {P : α → Prop} {t : List (κ × α)} {a : α} (k : κ)
    (ha : P a) (ht : ∀ p ∈ t, P p.2) : ∀ p ∈ set k a t, P p.2 := by
  induction t with
  | nil =>
    intro p hp
    rw [set, List.mem_singleton] at hp
    rwa [hp]
  | cons q t ih =>
    have hq : P q.2 := ht q List.mem_cons_self
    have ht' : ∀ p ∈ t, P p.2 := fun p hp => ht p (List.mem_cons_of_mem _ hp)
    intro p hp
    rw [set] at hp
    split at hp
    · rcases List.mem_cons.1 hp with rfl | hp
      · exact ha
      · exact ht' p hp
    · rcases List.mem_cons.1 hp with rfl | hp
      · exact hq
      · exact ih ht' p hp

theorem Assoc.mem_of_lookup {κ α : Type} [BEq κ] [LawfulBEq κ] {k : κ} {a : α} {t : List (κ × α)}
    (h : t.lookup k = some a) : (k, a) ∈ t := by
  obtain ⟨before, after, rfl, -⟩ := List.lookup_eq_some_iff.1 h
  simp

theorem ok_of_bind {ε α β : Type} {x : Except ε α} {f : α → Except ε β} {b : β}
    (h : (x >>= f) = .ok b) : ∃ a, x = .ok a ∧ f a = .ok b := by
  cases x with
  | error e => cases h
  | ok a => exact ⟨a, rfl, h⟩

/-- What holds of an element, and is kept by a change, holds after it. -/
theorem getD_modify {α : Type} {P : α → Prop} {xs : Array α} {j : Nat} {d : α} (i : Nat) {f : α → α}
    (h : P (xs.getD j d)) (hf : P (f (xs.getD j d))) : P ((xs.modify i f).getD j d) := by
  simp only [Array.getD_eq_getD_getElem?, Array.getElem?_modify] at h hf ⊢
  by_cases hij : i = j
  · cases hj : xs[j]? with
    | none => simpa [hij, hj] using h
    | some x => simpa [hij, hj] using hf
  · simpa [hij] using h

theorem getD_push {α : Type} {P : α → Prop} {xs : Array α} {j : Nat} {d x : α}
    (h : P (xs.getD j d)) (hx : P x) : P ((xs.push x).getD j d) := by
  simp only [Array.getD_eq_getD_getElem?, Array.getElem?_push] at h ⊢
  by_cases hj : j = xs.size
  · simpa [hj] using hx
  · simpa [hj] using h

/-! ### What annotations stand for -/

namespace Store

section

variable {s : Store} {env : Env} {subst : Subst}

/-- What an annotation of each form stands for, if it stands for a type. -/
theorem of_evalType {e : TypeExpr} {t : Ty} (h : s.evalType env subst e = .ok t) :
    match e with
    | .word text _ => ∃ type, Primitive.ofName? text = some type ∧ t = .primitive type
    | .named name => (∃ p ∈ subst, p.2 = t) ∨ s.type? env name.text = some t
    | .generic _ args => ∃ base ts, s.evalTypes env subst args = .ok ts ∧ t = .generic base ts
    | .union members _ => ∃ ts, s.evalTypes env subst members = .ok ts ∧ t = .union ts
    | .array element _ => ∃ u, s.evalType env subst element = .ok u ∧ t = .array u
    | .function params result _ => ∃ ts u, s.evalTypes env subst params = .ok ts ∧
        s.evalResult env subst result = .ok u ∧ t = .function ts u
    | .struct fields _ => ∃ members, s.evalFields env subst fields = .ok members ∧
        t = .struct "" [] members
    | .contract members _ => ∃ signatures, s.evalRequirements env subst members = .ok signatures ∧
        t = .contract "" signatures
    | .aliased target _ => ∃ u, s.evalType env subst target = .ok u ∧ t = .aliased "" u := by
  cases e with
  | word text span =>
    rw [evalType] at h
    split at h
    · rename_i type htype
      cases h
      exact ⟨type, htype, rfl⟩
    · cases h
  | named name =>
    rw [evalType] at h
    cases hlookup : subst.lookup name.text with
    | some u =>
      rw [hlookup] at h
      cases h
      exact .inl ⟨_, Assoc.mem_of_lookup hlookup, rfl⟩
    | none =>
      rw [hlookup, Option.orElse_none] at h
      cases htype : s.type? env name.text with
      | some u =>
        rw [htype] at h
        cases h
        exact .inr htype
      | none =>
        rw [htype] at h
        cases h
  | generic name args =>
    rw [evalType] at h
    split at h
    · cases h
    · split at h
      · obtain ⟨ts, hts, h⟩ := ok_of_bind h
        obtain ⟨_, -, h⟩ := ok_of_bind h
        cases h
        exact ⟨_, ts, hts, rfl⟩
      · cases h
  | union members span =>
    obtain ⟨ts, hts, h⟩ := ok_of_bind h
    cases h
    exact ⟨ts, hts, rfl⟩
  | array element span =>
    obtain ⟨u, hu, h⟩ := ok_of_bind h
    cases h
    exact ⟨u, hu, rfl⟩
  | function params result span =>
    obtain ⟨ts, hts, h⟩ := ok_of_bind h
    obtain ⟨u, hu, h⟩ := ok_of_bind h
    cases h
    exact ⟨ts, u, hts, hu, rfl⟩
  | struct fields span =>
    obtain ⟨members, hmembers, h⟩ := ok_of_bind h
    cases h
    exact ⟨members, hmembers, rfl⟩
  | contract members span =>
    obtain ⟨signatures, hsignatures, h⟩ := ok_of_bind h
    cases h
    exact ⟨signatures, hsignatures, rfl⟩
  | aliased target span =>
    obtain ⟨u, hu, h⟩ := ok_of_bind h
    cases h
    exact ⟨u, hu, rfl⟩

/-- Each of the types is what one of the annotations stands for. -/
theorem exists_of_evalTypes {es : List TypeExpr} {ts : List Ty}
    (h : s.evalTypes env subst es = .ok ts) :
    (es ≠ [] → ts ≠ []) ∧ ∀ t ∈ ts, ∃ e ∈ es, s.evalType env subst e = .ok t := by
  induction es generalizing ts with
  | nil =>
    cases h
    simp
  | cons e es ih =>
    obtain ⟨t, ht, h⟩ := ok_of_bind h
    obtain ⟨ts, hts, h⟩ := ok_of_bind h
    cases h
    refine ⟨by simp, List.forall_mem_cons.2 ⟨⟨e, List.mem_cons_self, ht⟩, fun u hu => ?_⟩⟩
    obtain ⟨e', he', hu⟩ := (ih hts).2 u hu
    exact ⟨e', List.mem_cons_of_mem _ he', hu⟩

/-- Each of the members has the type that the annotation of one of the fields stands for. -/
theorem exists_of_evalFields {fields : List FieldDecl} {members : List Member}
    (h : s.evalFields env subst fields = .ok members) :
    ∀ m ∈ members, ∃ f ∈ fields, s.evalType env subst f.type = .ok m.type := by
  induction fields generalizing members with
  | nil =>
    cases h
    simp
  | cons f rest ih =>
    obtain ⟨name, type, optional⟩ := f
    obtain ⟨member, hmember, h⟩ := ok_of_bind h
    obtain ⟨members, hmembers, h⟩ := ok_of_bind h
    cases h
    obtain ⟨t, ht, hmember⟩ := ok_of_bind hmember
    cases hmember
    refine List.forall_mem_cons.2 ⟨⟨_, List.mem_cons_self, ht⟩, fun m hm => ?_⟩
    obtain ⟨g, hg, hgm⟩ := ih hmembers m hm
    exact ⟨g, List.mem_cons_of_mem _ hg, hgm⟩

end

section

variable {s : Store} {env : Env} {W : TypeExpr → Prop} {P : Ty → Prop}
  (hmeant : ∀ {subst e t}, W e → (∀ p ∈ subst, P p.2) → s.evalType env subst e = .ok t → P t)
include hmeant

theorem forall_of_evalResult {subst : Subst} (hsubst : ∀ p ∈ subst, P p.2) {e : Option TypeExpr}
    (he : ∀ x ∈ e, W x) {type : Option Ty} (h : s.evalResult env subst e = .ok type) :
    ∀ t ∈ type, P t := by
  cases e with
  | none =>
    cases h
    simp
  | some e =>
    obtain ⟨t, ht, h⟩ := ok_of_bind h
    cases h
    simpa using hmeant (he e rfl) hsubst ht

/-- A bound is an annotation that sees the parameters before it. -/
theorem forall_of_evalTypeParams
    (hparam : ∀ {name bound}, (∀ t ∈ bound, P t) → P (.param name bound)) {subst subst' : Subst}
    (hsubst : ∀ p ∈ subst, P p.2) {params : List TypeParam}
    (hparams : ∀ e ∈ TypeParam.bounds params, W e) {bounds : List Bound}
    (h : s.evalTypeParams env params subst = .ok (bounds, subst')) :
    (∀ p ∈ bounds, ∀ t ∈ p.bound, P t) ∧ ∀ p ∈ subst', P p.2 := by
  induction params generalizing subst bounds with
  | nil =>
    cases h
    exact ⟨by simp, hsubst⟩
  | cons param rest ih =>
    obtain ⟨bound, hbound, h⟩ := ok_of_bind h
    obtain ⟨⟨bounds, subst''⟩, hrest, h⟩ := ok_of_bind h
    cases h
    obtain ⟨hown, hparams⟩ := TypeParam.forall_bounds_cons.1 hparams
    have hbound := forall_of_evalResult hmeant hsubst hown hbound
    obtain ⟨hbounds, hsubst'⟩ := ih (List.forall_mem_cons.2 ⟨hparam hbound, hsubst⟩) hparams hrest
    exact ⟨List.forall_mem_cons.2 ⟨hbound, hbounds⟩, hsubst'⟩

end

end Store

/-! ### Lawful stores -/

section

variable {law : CodeLaw}

structure Scope.Lawful (law : CodeLaw) (s : Scope) : Prop where
  vars : ∀ p ∈ s.vars, law.value p.2.value
  recorded : ∀ p ∈ s.vars, ∀ t ∈ p.2.type, law.held t
  methods : ∀ p ∈ s.methods, law.value p.2
  getters : ∀ p ∈ s.getters, law.value p.2
  types : ∀ p ∈ s.types, law.type p.2

/-- All functions and all types in the store satisfy the law. -/
structure Store.Lawful (law : CodeLaw) (s : Store) : Prop where
  scope : ∀ a, (s.scope a).Lawful law
  object : ∀ a, ∀ p ∈ (s.object a).properties, law.value p.2
  typeArgs : ∀ a, ∀ t ∈ (s.object a).typeArgs, law.held t
  array : ∀ a, ∀ v ∈ s.array a, law.value v

theorem Scope.lawful_empty : ({} : Scope).Lawful law where
  vars _ h := absurd h List.not_mem_nil
  recorded _ h := absurd h List.not_mem_nil
  methods _ h := absurd h List.not_mem_nil
  getters _ h := absurd h List.not_mem_nil
  types _ h := absurd h List.not_mem_nil

theorem Store.lawful_empty : ({} : Store).Lawful law where
  scope _ := Scope.lawful_empty
  object _ _ h := absurd h List.not_mem_nil
  typeArgs _ _ h := absurd h List.not_mem_nil
  array _ _ h := absurd h (Array.not_mem_empty _)

theorem CodeLaw.any_value (v : Value) : CodeLaw.any.value v := by
  cases v <;> trivial

theorem CodeLaw.any_store (s : Store) : s.Lawful .any where
  scope _ := ⟨fun _ _ => any_value _, fun _ _ _ _ => trivial, fun _ _ => any_value _,
    fun _ _ => any_value _, fun _ _ => trivial⟩
  object _ _ _ := any_value _
  typeArgs _ _ _ := trivial
  array _ _ _ := any_value _

namespace Store.Lawful

variable {s : Store} {env : Env}

/-! What is read from a lawful store -/

theorem lookup (h : s.Lawful law) {name : String} {v : Value} (hv : s.lookup env name = .ok v) :
    law.value v := by
  unfold Store.lookup at hv
  split at hv
  · rename_i b hb
    cases hv
    obtain ⟨a, -, ha⟩ := List.exists_of_findSome?_eq_some hb
    exact (h.scope a).vars _ (Assoc.mem_of_lookup ha)
  · cases hv

theorem method? (h : s.Lawful law) {struct name : String} {v : Value}
    (hv : s.method? env struct name = some v) : law.value v := by
  obtain ⟨a, -, ha⟩ := List.exists_of_findSome?_eq_some hv
  exact (h.scope a).methods _ (Assoc.mem_of_lookup ha)

theorem getter? (h : s.Lawful law) {struct name : String} {v : Value}
    (hv : s.getter? env struct name = some v) : law.value v := by
  obtain ⟨a, -, ha⟩ := List.exists_of_findSome?_eq_some hv
  exact (h.scope a).getters _ (Assoc.mem_of_lookup ha)

theorem type? (h : s.Lawful law) {name : String} {t : Ty} (ht : s.type? env name = some t) :
    law.type t := by
  obtain ⟨a, -, ha⟩ := List.exists_of_findSome?_eq_some ht
  exact (h.scope a).types _ (Assoc.mem_of_lookup ha)

/-! What annotations stand for in it -/

variable {subst : Subst}

theorem evalType (h : s.Lawful law) {e : TypeExpr} (he : law.written e)
    (hsubst : ∀ p ∈ subst, law.held p.2) {t : Ty} (ht : s.evalType env subst e = .ok t) : law.held t :=
  law.meant he (fun _ _ _ => h.type?) hsubst ht

theorem evalResult (h : s.Lawful law) (hsubst : ∀ p ∈ subst, law.held p.2) {e : Option TypeExpr}
    (he : ∀ x ∈ e, law.written x) {type : Option Ty} (ht : s.evalResult env subst e = .ok type) :
    ∀ t ∈ type, law.held t :=
  forall_of_evalResult (h.evalType · · ·) hsubst he ht

theorem evalTypes (h : s.Lawful law) (hsubst : ∀ p ∈ subst, law.held p.2) {es : List TypeExpr}
    (hes : ∀ e ∈ es, law.written e) {ts : List Ty} (hts : s.evalTypes env subst es = .ok ts) :
    ∀ t ∈ ts, law.held t := by
  intro t ht
  obtain ⟨e, hmem, he⟩ := (exists_of_evalTypes hts).2 t ht
  exact h.evalType (hes e hmem) hsubst he

theorem evalTypeParams (h : s.Lawful law) (hsubst : ∀ p ∈ subst, law.held p.2)
    {params : List TypeParam} (hparams : ∀ e ∈ TypeParam.bounds params, law.written e)
    {bounds : List Bound} {subst' : Subst}
    (hp : s.evalTypeParams env params subst = .ok (bounds, subst')) :
    (∀ p ∈ bounds, ∀ t ∈ p.bound, law.held t) ∧ ∀ p ∈ subst', law.held p.2 :=
  forall_of_evalTypeParams (h.evalType · · ·) law.parameter hsubst hparams hp

theorem evalFields (h : s.Lawful law) (hsubst : ∀ p ∈ subst, law.held p.2) {fields : List FieldDecl}
    (hfields : ∀ e ∈ fields.map (·.type), law.written e) {members : List Member}
    (hf : s.evalFields env subst fields = .ok members) : ∀ m ∈ members, law.held m.type := by
  intro m hm
  obtain ⟨f, hmem, ht⟩ := exists_of_evalFields hf m hm
  exact h.evalType (hfields _ (List.mem_map_of_mem hmem)) hsubst ht

/-- The type that a declaration records. -/
theorem declaration (h : s.Lawful law) {name : String} {v : Value} {modifier : Modifier}
    {type : Option Ty} (ht : ∀ t ∈ type, law.held t) {b : Binding}
    (hb : s.declaration env name v modifier type = .ok b) : ∀ t ∈ b.type, law.held t := by
  unfold Store.declaration at hb
  split at hb
  · cases hb
  · split at hb
    · cases hb
      split
      · simp
      · simpa using law.typed v h.typeArgs
    · repeat' split at hb
      all_goals cases hb <;> exact ht

/-- The type that is recorded after an assignment. -/
theorem assignment (h : s.Lawful law) {name : String} {v : Value} {a : Nat} {b : Binding}
    (hb : s.assignment env name v = .ok (a, b)) : ∀ t ∈ b.type, law.held t := by
  obtain ⟨_, -, hb⟩ := ok_of_bind hb
  split at hb
  · rename_i b' _ hbinding
    obtain ⟨a', -, ha'⟩ := List.exists_of_findSome?_eq_some hbinding
    have hrecorded := (h.scope a').recorded _ (Assoc.mem_of_lookup ha')
    split at hb
    · cases hb
      split
      · simp
      · simpa using law.typed v h.typeArgs
    · rename_i type htype
      split at hb
      · cases hb
      · cases hb
        exact htype ▸ hrecorded
  · cases hb

/-! What is written to it -/

theorem modifyScope (h : s.Lawful law) (a : Nat) {f : Scope → Scope}
    (hf : ∀ scope : Scope, scope.Lawful law → (f scope).Lawful law) :
    (s.modifyScope a f).Lawful law where
  scope b := getD_modify a (h.scope b) (hf _ (h.scope b))
  object := h.object
  typeArgs := h.typeArgs
  array := h.array

theorem bind (h : s.Lawful law) (a : Nat) (name : String) {b : Binding} (hb : law.value b.value)
    (ht : ∀ t ∈ b.type, law.held t) : (s.bind a name b).Lawful law := by
  refine h.modifyScope a fun scope hs => ⟨?_, ?_, hs.methods, hs.getters, hs.types⟩
  · exact Assoc.forall_set (P := fun b : Binding => law.value b.value) name hb hs.vars
  · exact Assoc.forall_set (P := fun b : Binding => ∀ t ∈ b.type, law.held t) name ht hs.recorded

theorem setConstant (h : s.Lawful law) (env : Env) (name : String) {v : Value} (hv : law.value v) :
    (s.setConstant env name v).Lawful law := by
  refine h.modifyScope _ fun scope hs => ⟨?_, ?_, hs.methods, hs.getters, hs.types⟩
  · exact Assoc.forall_set (P := fun b : Binding => law.value b.value) name hv hs.vars
  · refine Assoc.forall_set (P := fun b : Binding => ∀ t ∈ b.type, law.held t) name ?_ hs.recorded
    intro t ht
    obtain ⟨b, hb, ht⟩ := Option.bind_eq_some_iff.1 ht
    exact hs.recorded _ (Assoc.mem_of_lookup hb) t ht

theorem setType (h : s.Lawful law) (env : Env) (name : String) {type : Ty} (ht : law.type type) :
    (s.setType env name type).Lawful law :=
  h.modifyScope _ fun _ hs => ⟨hs.vars, hs.recorded, hs.methods, hs.getters, Assoc.forall_set _ ht hs.types⟩

theorem addMethod (h : s.Lawful law) (env : Env) (struct name : String) {f : Value}
    (hf : law.value f) : (s.addMethod env struct name f).Lawful law :=
  h.modifyScope _ fun _ hs => ⟨hs.vars, hs.recorded, Assoc.forall_set _ hf hs.methods, hs.getters, hs.types⟩

theorem addGetter (h : s.Lawful law) (env : Env) (struct name : String) {f : Value}
    (hf : law.value f) : (s.addGetter env struct name f).Lawful law :=
  h.modifyScope _ fun _ hs => ⟨hs.vars, hs.recorded, hs.methods, Assoc.forall_set _ hf hs.getters, hs.types⟩

theorem addFulfillment (h : s.Lawful law) (env : Env) (struct contract : String) :
    (s.addFulfillment env struct contract).Lawful law := by
  refine h.modifyScope _ fun scope hs => ?_
  split
  · exact hs
  · exact ⟨hs.vars, hs.recorded, hs.methods, hs.getters, hs.types⟩

theorem newScope (h : s.Lawful law) (env : Env) : (s.newScope env).2.Lawful law where
  scope b := getD_push (h.scope b) Scope.lawful_empty
  object := h.object
  typeArgs := h.typeArgs
  array := h.array

theorem newObject (h : s.Lawful law) {o : Obj} (ho : ∀ p ∈ o.properties, law.value p.2)
    (ht : ∀ t ∈ o.typeArgs, law.held t) : (s.newObject o).2.Lawful law where
  scope := h.scope
  object a := getD_push (P := fun o : Obj => ∀ p ∈ o.properties, law.value p.2) (h.object a) ho
  typeArgs a := getD_push (P := fun o : Obj => ∀ t ∈ o.typeArgs, law.held t) (h.typeArgs a) ht
  array := h.array

theorem newArray (h : s.Lawful law) {items : Array Value} (hi : ∀ v ∈ items, law.value v) :
    (s.newArray items).2.Lawful law where
  scope := h.scope
  object := h.object
  typeArgs := h.typeArgs
  array a := getD_push (P := fun items : Array Value => ∀ v ∈ items, law.value v) (h.array a) hi

theorem setProperty (h : s.Lawful law) (a : Nat) (name : String) {v : Value} (hv : law.value v) :
    (s.setProperty a name v).Lawful law where
  scope := h.scope
  object b := by
    refine getD_modify (P := fun o : Obj => ∀ p ∈ o.properties, law.value p.2) a (h.object b) ?_
    exact Assoc.forall_set name hv (h.object b)
  typeArgs b := getD_modify (P := fun o : Obj => ∀ t ∈ o.typeArgs, law.held t) a (h.typeArgs b)
    (h.typeArgs b)
  array := h.array

theorem setElement (h : s.Lawful law) (a slot : Nat) {v : Value} (hv : law.value v) :
    (s.setElement a slot v).Lawful law where
  scope := h.scope
  object := h.object
  typeArgs := h.typeArgs
  array b := by
    refine getD_modify (P := fun items : Array Value => ∀ v ∈ items, law.value v) a (h.array b) ?_
    intro w hw
    rcases Array.mem_or_eq_of_mem_setIfInBounds hw with hw | rfl
    · exact h.array b w hw
    · exact hv

/-- Functions put into a store one after another. -/
theorem foldl {α : Type} (add : Store → α → Store) {fs : List α}
    (hadd : ∀ f ∈ fs, ∀ s : Store, s.Lawful law → (add s f).Lawful law) (h : s.Lawful law) :
    (fs.foldl add s).Lawful law := by
  induction fs generalizing s with
  | nil => exact h
  | cons f fs ih =>
    exact ih (fun g hg => hadd g (List.mem_cons_of_mem _ hg)) (hadd f List.mem_cons_self s h)

theorem bootstrap (h : s.Lawful law) (env : Env) : (s.bootstrap env).Lawful law := by
  unfold Store.bootstrap
  have htypes : (Primitive.all.foldl (fun s p => s.setType env p.name (.primitive p)) s).Lawful law :=
    foldl _ (fun p _ s hs => hs.setType env p.name (law.primitive p)) h
  have htrue := htypes.setConstant env "true" (v := .bool true) trivial
  have hfalse := htrue.setConstant env "false" (v := .bool false) trivial
  have hnull := hfalse.setConstant env "null" (v := .null) trivial
  exact foldl _ (fun f _ s hs => hs.setConstant env f.name trivial) hnull

end Store.Lawful

/-- All properties are among the members, and all members but the optional ones are among the
properties. -/
structure HasMembers (properties : List (String × Value)) (members : List Member) : Prop where
  declared : ∀ p ∈ properties, ∃ member ∈ members, member.name = p.1
  required : ∀ member ∈ members, member.optional = false → ∃ v, (member.name, v) ∈ properties

/-- A change that evaluation makes to a store, with the event that an observer is shown. -/
inductive Change (law : CodeLaw) (s : Store) : Event → Store → Prop
  | scope (env : Env) : Change law s .changed (s.newScope env).2
  | object {o : Obj} (ht : o.tag = none) (ha : o.typeArgs = [])
      (h : ∀ p ∈ o.properties, law.value p.2) : Change law s .changed (s.newObject o).2
  | made {o : Obj} {tag : String} {params : List Bound} {members : List Member}
      (ht : o.tag = some tag) (ha : ∀ t ∈ o.typeArgs, law.held t)
      (hm : HasMembers o.properties members) (h : ∀ p ∈ o.properties, law.value p.2) :
      Change law s (.made (.object s.objects.size) params members) (s.newObject o).2
  | array {items : Array Value} (h : ∀ v ∈ items, law.value v) :
      Change law s .changed (s.newArray items).2
  | declare {env : Env} {name : String} {v : Value} {modifier : Modifier} {type : Option Ty}
      {b : Binding} (hv : law.value v) (ht : ∀ t ∈ type, law.held t)
      (h : s.declaration env name v modifier type = .ok b) :
      Change law s .changed (s.bind env.here name b)
  | assign {env : Env} {name : String} {v : Value} {a : Nat} {b : Binding} (hv : law.value v)
      (h : s.assignment env name v = .ok (a, b)) : Change law s .changed (s.bind a name b)
  | property {env : Env} {a : Nat} {field : String} {v : Value} (hv : law.value v)
      (h : s.checkField env (s.object a) field v = .ok ()) :
      Change law s (.wrote env a field v) (s.setProperty a field v)
  | element {a slot : Nat} {v : Value} (hv : law.value v) (h : slot < (s.array a).size) :
      Change law s .changed (s.setElement a slot v)
  | type {env : Env} {name : String} {type : Ty} (ht : law.type type)
      (h : s.checkTypeName env name = .ok ()) :
      Change law s .changed (s.setType env name type)
  | method {env : Env} {struct name : String} {f : Value} (hf : law.value f) :
      Change law s .changed (s.addMethod env struct name f)
  | getter {env : Env} {struct name : String} {f : Value} (hf : law.value f) :
      Change law s .changed (s.addGetter env struct name f)
  | fulfillment {env : Env} {struct contract : String} :
      Change law s .changed (s.addFulfillment env struct contract)

theorem Store.declaration_value {s : Store} {env : Env} {name : String} {v : Value}
    {modifier : Modifier} {type : Option Ty} {b : Binding}
    (h : s.declaration env name v modifier type = .ok b) : b.value = v := by
  unfold declaration at h
  repeat' split at h
  all_goals cases h <;> rfl

theorem Store.assignment_value {s : Store} {env : Env} {name : String} {v : Value} {a : Nat}
    {b : Binding} (h : s.assignment env name v = .ok (a, b)) : b.value = v := by
  obtain ⟨_, -, h⟩ := ok_of_bind h
  repeat' split at h
  all_goals cases h <;> rfl

theorem Change.lawful {s s' : Store} {event : Event} (h : Change law s event s')
    (hs : s.Lawful law) : s'.Lawful law := by
  cases h with
  | scope env => exact hs.newScope env
  | object _ ha h => exact hs.newObject h (by simp [ha])
  | made _ ha _ h => exact hs.newObject h ha
  | array h => exact hs.newArray h
  | declare hv ht h => exact hs.bind _ _ (by rwa [Store.declaration_value h]) (hs.declaration ht h)
  | assign hv h => exact hs.bind _ _ (by rwa [Store.assignment_value h]) (hs.assignment h)
  | property hv _ => exact hs.setProperty _ _ hv
  | element hv _ => exact hs.setElement _ _ hv
  | type ht _ => exact hs.setType _ _ ht
  | method hf => exact hs.addMethod _ _ _ hf
  | getter hf => exact hs.addGetter _ _ _ hf
  | fulfillment => exact hs.addFulfillment _ _ _

end

end Sable
