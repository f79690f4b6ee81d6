import Sable.Proofs.Runs.Declarations
import Sable.Proofs.Types.Substitution
import Sable.Proofs.Values.Assignments

/-!
# Members and annotations

The types of members are evaluated once, while the name of the struct stands for a struct without
members. `Literal.AsAnnotated`: a member declared with the name of a type takes the values that a
variable annotated with the name takes, where the two are `Comparable`. A member of the struct's own
type takes every object without a tag.
-/

namespace Sable

theorem Subst.ofArgs_nil (params : List Bound) : Subst.ofArgs params [] = [] := by
  simp [ofArgs]

namespace Store

variable {s s' : Store} {env : Env} {name : String}

/-! ### Names of types -/

theorem type?_newScope (s : Store) (env : Env) (name : String) :
    (s.newScope env).2.type? (s.newScope env).1 name = s.type? env name := by
  have hfresh : (s.scope s.scopes.size).types.lookup name = none := by
    rw [scope_of_size_le (Nat.le_refl _)]
    rfl
  have hpath : (s.newScope env).1.path = s.scopes.size :: env.path := rfl
  unfold type?
  simp only [scope_newScope, hpath, List.findSome?_cons, hfresh]

theorem type?_setType_self {type : Ty} (h : env.here < s.scopes.size) :
    (s.setType env name type).type? env name = some type := by
  unfold type? Env.path setType
  rw [List.findSome?_cons, scope_modifyScope_self _ h, Assoc.lookup_set_self]

theorem type?_setType_of_ne {inside : Env} {other : String} {type : Ty} (h : other ≠ name) :
    (s.setType inside name type).type? env other = s.type? env other := by
  have hscope (a : Nat) : ((s.setType inside name type).scope a).types.lookup other =
      (s.scope a).types.lookup other := by
    by_cases ha : a = inside.here
    · subst ha
      by_cases hlt : inside.here < s.scopes.size
      · rw [setType, scope_modifyScope_self _ hlt, Assoc.lookup_set_of_ne _ _ h]
      · rw [scope_of_size_le (by rw [setType, size_modifyScope]; exact Nat.not_lt.1 hlt),
          scope_of_size_le (Nat.not_lt.1 hlt)]
    · rw [setType, scope_modifyScope_of_ne _ ha]
  unfold type?
  simp only [hscope]

theorem type?_congr (h : ∀ a ∈ env.path, s'.scope a = s.scope a) (name : String) :
    s'.type? env name = s.type? env name := by
  unfold type?
  generalize env.path = path at h
  induction path with
  | nil => rfl
  | cons a path ih =>
    rw [List.findSome?_cons, List.findSome?_cons, h a List.mem_cons_self,
      ih fun b hb => h b (List.mem_cons_of_mem _ hb)]

theorem evalType_named {subst : Subst} {n : Name} (hparam : subst.lookup n.text = none) {t : Ty} :
    s.evalType env subst (.named n) = .ok t ↔ s.type? env n.text = some t := by
  rw [evalType, hparam]
  cases s.type? env n.text <;> simp

/-! ### The members of a declared struct -/

/-- The parameters of a declaration are all that its substitution knows. -/
theorem evalTypeParams_lookup {params : List TypeParam} {subst subst' : Subst} {bounds : List Bound}
    (h : s.evalTypeParams env params subst = .ok (bounds, subst'))
    (hname : name ∉ params.map (·.name.text)) : subst'.lookup name = subst.lookup name := by
  induction params generalizing subst bounds with
  | nil =>
    cases h
    rfl
  | cons param params ih =>
    rw [List.map_cons, List.mem_cons, not_or] at hname
    obtain ⟨bound, -, h⟩ := ok_of_bind h
    obtain ⟨⟨bounds', subst''⟩, hrest, h⟩ := ok_of_bind h
    cases h
    rw [ih hrest hname.2, List.lookup_cons, beq_false_of_ne hname.1]

/-- Members are evaluated one by one. -/
theorem evalFields_zip {subst : Subst} {fields : List FieldDecl} {members : List Member}
    (h : s.evalFields env subst fields = .ok members) :
    members.length = fields.length ∧ ∀ field member, (field, member) ∈ fields.zip members →
      ∃ t, s.evalType env subst field.type = .ok t ∧ member = ⟨field.name.text, t, field.optional⟩ := by
  induction fields generalizing members with
  | nil =>
    cases h
    exact ⟨rfl, nofun⟩
  | cons first fields ih =>
    obtain ⟨name, type, optional⟩ := first
    obtain ⟨member, hmember, h⟩ := ok_of_bind h
    obtain ⟨rest, hrest, h⟩ := ok_of_bind h
    cases h
    obtain ⟨t, ht, hend⟩ := ok_of_bind hmember
    cases hend
    obtain ⟨hlength, hzip⟩ := ih hrest
    refine ⟨by simp [hlength], fun field member hmem => ?_⟩
    rw [List.zip_cons_cons, List.mem_cons] at hmem
    rcases hmem with hmem | hmem
    · cases hmem
      exact ⟨t, ht, rfl⟩
    · exact hzip field member hmem

/-- The type of a member declared with a name: what the name stands for outside, or the struct as it
is while its members are evaluated. -/
theorem evalStruct_named {subst : Subst} {bounds : List Bound} {fields : List FieldDecl}
    {members : List Member} (h : s.evalStruct env subst name bounds fields = .ok members)
    {field : FieldDecl} {member : Member} (hmem : (field, member) ∈ fields.zip members) {n : Name}
    (hn : field.type = .named n) (hparam : subst.lookup n.text = none) :
    member.name = field.name.text ∧ member.optional = field.optional ∧
      (if n.text = name then some (.struct name bounds []) else s.type? env n.text) =
        some member.type := by
  obtain ⟨t, ht, rfl⟩ := (evalFields_zip h).2 field member hmem
  refine ⟨rfl, rfl, ?_⟩
  rw [hn, evalType_named hparam] at ht
  rw [← ht]
  split <;> rename_i hname
  · rw [hname, type?_setType_self]
    show s.scopes.size < (s.newScope env).2.scopes.size
    rw [size_newScope]
    omega
  · rw [type?_setType_of_ne hname]
    exact (type?_newScope s env n.text).symm

/-- What the declaration of a struct comes to. -/
theorem of_declareTypeDef {params : List TypeParam} {fields : List FieldDecl} {span : Span} {type : Ty}
    (h : s.declareTypeDef env name params (.struct fields span) = .ok (type, s')) :
    ∃ bounds subst members, s.evalTypeParams env params = .ok (bounds, subst) ∧
      s.evalStruct env subst name bounds fields = .ok members ∧ type = .struct name bounds members ∧
      s' = s.setType env name type := by
  obtain ⟨type', htype, h⟩ := ok_of_bind h
  obtain ⟨s'', hdeclare, h⟩ := ok_of_bind h
  cases h
  obtain ⟨_, -, hset⟩ := ok_of_bind hdeclare
  cases hset
  obtain ⟨⟨bounds, subst⟩, hparams, h⟩ := ok_of_bind htype
  obtain ⟨members, hmembers, h⟩ := ok_of_bind h
  cases h
  exact ⟨bounds, subst, members, hparams, hmembers, rfl, rfl⟩

/-! ### Values for a member of the struct's own type -/

/-- Apart from objects without a tag, what a named struct accepts does not depend on its members. -/
theorem accepts_struct_members {params : List Bound} {x : Value} (hname : name ≠ "")
    (hx : ∀ a, x = .object a → (s.object a).tag ≠ none) (members members' : List Member) :
    s.accepts env (.struct name params members) x = s.accepts env (.struct name params members') x := by
  rw [accepts_eq_verdict rfl (by rintro _ _ ⟨⟩), accepts_eq_verdict rfl (by rintro _ _ ⟨⟩)]
  have hfits {t : Ty} (ht : ∀ ms, t.matchesForm (.struct name params ms) = false) :
      t.fits (.struct name params members) = t.fits (.struct name params members') := by
    rw [Ty.fits, Ty.fits, ht, ht]
    rfl
  cases x with
  | object a =>
    obtain ⟨tag, htag⟩ := Option.ne_none_iff_exists'.1 (hx a rfl)
    simp [head, htag, verdict, hname]
  | array a =>
    obtain ⟨t, ht⟩ := arrayType_eq ((s.array a).toList.map
      (s.typeWithin (s.objects.size + s.arrays.size) [.array a]))
    have htype : s.typeOf (.array a) = .array t := (typeOf_eq_shape (.array a)).trans ht
    rw [htype]
    exact hfits fun ms => by simp [Ty.matchesForm]
  | _ =>
    refine hfits fun ms => ?_
    simp [typeOf, depth, typeWithin, Value.scalarType, Ty.null, Ty.dynamic, Ty.matchesForm]

/-- A struct without members accepts every object without a tag. -/
theorem accepts_placeholder {params : List Bound} {a : Nat} (htag : (s.object a).tag = none) :
    s.accepts env (.struct name params []) (.object a) = true :=
  (accepts_untagged htag (typeOf_eq_shape (.object a))).2 nofun

end Store

/-! ### Literals -/

/-- A literal of a struct: the name that it gives, the struct and the arguments found for it, and what
is given for the members. -/
structure Literal where
  struct : String
  tag : String
  params : List Bound
  members : List Member
  args : List Ty
  given : List (Name × Option Expr)

namespace Literal

variable {ω : Type} [Observer ω]

/-- The type that a literal asks for where a member has the given type. -/
def expected (l : Literal) (member : Member) : Ty :=
  member.type.subst (.ofArgs l.params l.args)

/-- The value of a literal that has come to the members `rest`, with what it has found by then. -/
def resume (l : Literal) (inner : Inner ω) (env : Env) (found : List (String × Value))
    (rest : List Member) : Eval ω Value := do
  let properties ← inner.fields env l.struct (.ofArgs l.params l.args) l.given rest
  match l.given.find? fun p => (Member.find? l.members p.1.text).isNone with
  | some extra => Eval.raise (.unknownField extra.1.text l.struct)
  | none =>
    Eval.create (·.newObject ⟨some l.tag, l.args, found ++ properties⟩) (.made · l.params l.members)

/-- The literal goes on behind the member with the value. -/
def Takes (l : Literal) (inner : Inner ω) (env : Env) (member : Member) (v : Value) (m : Machine)
    (w : ω) (m' : Machine) (w' : ω) : Prop :=
  ∀ found rest, l.resume inner env found (member :: rest) m w =
    l.resume inner env (found ++ [(member.name, v)]) rest m' w'

/-- The literal ends at the member. -/
def Refuses (l : Literal) (inner : Inner ω) (env : Env) (member : Member) (v : Value) (m : Machine)
    (w : ω) (m' : Machine) : Prop :=
  ∀ found rest, ∃ w', l.resume inner env found (member :: rest) m w =
    .failed (.fieldMismatch member.name l.struct (l.expected member) (m'.store.typeOf v)) m' w'

variable {l : Literal} {inner : Inner ω} {env : Env} {member : Member} {name : Name} {e : Option Expr}
  {v : Value} {m m' : Machine} {w w' : ω}

theorem takes (hgiven : l.given.find? (·.1.text == member.name) = some (name, e))
    (hv : inner.property env name e m w = .done v m' w')
    (h : m'.store.accepts env (l.expected member) v = true) :
    l.Takes inner env member v m w m' w' := by
  intro found rest
  unfold expected at h
  simp only [resume, Inner.fields, bind, Eval.bind, hgiven, hv, Eval.demand, Eval.query, h, if_true]
  cases inner.fields env l.struct (.ofArgs l.params l.args) l.given rest m' w' with
  | done properties m₁ w₁ => simp [pure, Eval.pure]
  | failed _ _ _ => rfl
  | exhausted _ => rfl

theorem refuses (hgiven : l.given.find? (·.1.text == member.name) = some (name, e))
    (hv : inner.property env name e m w = .done v m' w')
    (h : m'.store.accepts env (l.expected member) v = false) :
    l.Refuses inner env member v m w m' := by
  intro found rest
  unfold expected at h ⊢
  simp only [resume, Inner.fields, bind, Eval.bind, hgiven, hv, Eval.demand, Eval.query, h,
    Bool.false_eq_true, if_false]
  exact ⟨_, rfl⟩

end Literal

section

variable {ω : Type} [Observer ω] {cfg : Config} {fuel : Nat} {env : Env} {m m' : Machine} {w w' : ω}

/-- A literal starts with all members of the struct that it names, once its type arguments are known. -/
theorem Eval.object_resume {struct : Name} {typeArgs : List TypeExpr}
    {given : List (Name × Option Expr)} {span : Span} {tag : String} {params : List Bound}
    {members : List Member} {args : List Ty}
    (htype : m.store.type? env struct.text = some (.struct tag params members))
    (hargs : m.store.evalTypes env [] typeArgs = .ok args)
    (hcheck : args = [] ∨ Store.checkTypeArgs tag params args = .ok ()) :
    Eval.expr cfg (fuel + 1) env (.object (some struct) typeArgs given span) m w =
      (⟨struct.text, tag, params, members, args, given⟩ : Literal).resume (Eval.inner cfg fuel ω) env
        [] members m (Observer.see w ⟨.resolving typeArgs, m⟩) := by
  have hchecked : args.isEmpty = false → Store.checkTypeArgs tag params args = .ok () := by
    intro hne
    rcases hcheck with rfl | hcheck
    · cases hne
    · exact hcheck
  simp only [Eval.expr, Inner.exprRule, Inner.object, Inner.instantiate, Bind.bind, Eval.bind,
    Eval.ask, htype, Option.map_some, Ty.unaliased, Eval.resolve, Eval.report, Eval.query, hargs]
  cases hempty : args.isEmpty with
  | true => rfl
  | false =>
    simp only [hchecked hempty]
    rfl

/-- What a literal takes for a member is the value of an expression. -/
theorem Inner.property_eq (name : Name) (e : Option Expr) :
    (Eval.inner cfg (fuel + 1) ω).property env name e =
      Eval.expr cfg (fuel + 1) env (e.getD (.var name)) := by
  cases e <;> rfl

variable {x : Name} {asked : TypeExpr} {e : Expr} {v : Value} {type : Ty}

/-- An annotated declaration with a value. -/
theorem Eval.annotated_eq (he : Eval.expr cfg fuel env e m w = .done v m' w')
    (htype : m'.store.evalType env [] asked = .ok type) :
    Eval.stmt cfg (fuel + 1) env (.varDecl ⟨.final, x, some asked, some e⟩) m w =
      (Eval.declare env x.text v .final (some type) >>= fun _ => pure (.normal v)) m'
        (Observer.see w' ⟨.resolving [asked], m'⟩) := by
  have hresult : m'.store.evalResult env [] (some asked) = .ok (some type) := by
    rw [Store.evalResult, htype]
    rfl
  simp only [Eval.stmt, Inner.stmtRule, Inner.varDecl, Bind.bind, Eval.bind, he, Eval.resolve,
    Eval.report, Eval.query, hresult, Option.toList_some]
  cases Eval.declare env x.text v .final (some type) m' (Observer.see w' ⟨.resolving [asked], m'⟩) <;> rfl

/-- It declares the variable if the type accepts the value, and fails otherwise. -/
theorem Eval.annotated_declares (he : Eval.expr cfg fuel env e m w = .done v m' w')
    (htype : m'.store.evalType env [] asked = .ok type)
    (hfree : (m'.store.scope env.here).vars.lookup x.text = none) :
    if m'.store.accepts env type v then
      ∃ m₁ w₁, Eval.stmt cfg (fuel + 1) env (.varDecl ⟨.final, x, some asked, some e⟩) m w =
        .done (.normal v) m₁ w₁
    else
      ∃ fault w₁, Eval.stmt cfg (fuel + 1) env (.varDecl ⟨.final, x, some asked, some e⟩) m w =
        .failed fault m' w₁ := by
  rw [Eval.annotated_eq he htype]
  unfold Store.accepts
  cases hmismatch : m'.store.mismatch? env type v with
  | none =>
    have hdeclaration : m'.store.declaration env x.text v .final (some type) =
        .ok ⟨v, .final, some type⟩ := by
      simp [Store.declaration, hfree, hmismatch]
    simp only [Eval.declare, Bind.bind, Eval.bind, Eval.query, hdeclaration]
    exact ⟨_, _, rfl⟩
  | some mismatch =>
    have hdeclaration : m'.store.declaration env x.text v .final (some type) =
        .error (mismatch.fault x.text) := by
      simp [Store.declaration, hfree, hmismatch]
    simp only [Eval.declare, Bind.bind, Eval.bind, Eval.query, hdeclaration]
    exact ⟨_, _, rfl⟩

/-! ### Members as annotated -/

/-- A struct is declared under its name, and every other name stands for what it did. -/
theorem Eval.of_structDecl {struct : Name} {params : List TypeParam} {fields : List FieldDecl}
    {span : Span} {flow : Flow} (hpath : ∀ a ∈ env.path, a < m.store.scopes.size)
    (h : Eval.stmt cfg fuel env (.typeDecl struct params (.struct fields span)) m w =
      .done flow m' w') :
    ∃ bounds subst members, m.store.evalTypeParams env params = .ok (bounds, subst) ∧
      m.store.evalStruct env subst struct.text bounds fields = .ok members ∧
      m'.store.type? env struct.text = some (.struct struct.text bounds members) ∧
      ∀ n, n ≠ struct.text → m'.store.type? env n = m.store.type? env n := by
  cases fuel with
  | zero => cases h
  | succ fuel =>
    have hhere : env.here < m.store.scopes.size := hpath env.here List.mem_cons_self
    have hanswer := (Eval.typeDecl_allOrNothing cfg fuel env struct params (.struct fields span)).answered
      ω m w hhere
    cases hdeclare : m.store.declareTypeDef env struct.text params (.struct fields span) with
    | error fault =>
      rw [hdeclare] at hanswer
      obtain ⟨m₁, w₁, hfailed⟩ := hanswer
      cases hfailed.symm.trans h
    | ok result =>
      obtain ⟨type, s⟩ := result
      rw [hdeclare] at hanswer
      obtain ⟨m₁, w₁, hdone, hintact⟩ := hanswer
      cases hdone.symm.trans h
      obtain ⟨bounds, subst, members, hparams, hmembers, rfl, rfl⟩ := Store.of_declareTypeDef hdeclare
      -- the scope made for the members stays in the store, but is not on the path
      have htype (n : String) : m'.store.type? env n =
          (m.store.setType env struct.text (.struct struct.text bounds members)).type? env n := by
        refine Store.type?_congr (fun a ha => hintact.scope a ?_) n
        show a < (m.store.modifyScope env.here _).scopes.size
        rw [Store.size_modifyScope]
        exact hpath a ha
      refine ⟨bounds, subst, members, hparams, hmembers, ?_, fun n hn => ?_⟩
      · rw [htype, Store.type?_setType_self hhere]
      · rw [htype, Store.type?_setType_of_ne hn]

namespace Literal

variable (l : Literal) (cfg : Config) (env : Env) (member : Member) (n x : Name) (type : Ty) (e : Expr)
  (v : Value) (after m m' : Machine) (k : Nat) (w w' : ω)

/-- The literal of a struct declared before `after` starts with all members. -/
def Starts (ω : Type) [Observer ω] (struct : Name) : Prop :=
  ∀ k typeArgs span m (w : ω), m.store.type? env struct.text = after.store.type? env struct.text →
    m.store.evalTypes env [] typeArgs = .ok l.args →
    l.args = [] ∨ Store.checkTypeArgs l.tag l.params l.args = .ok () →
    Eval.expr cfg (k + 1) env (.object (some struct) typeArgs l.given span) m w =
      l.resume (Eval.inner cfg k ω) env [] l.members m (Observer.see w ⟨.resolving typeArgs, m⟩)

/-- The literal is given the expression for the member. It has the value, and leaves the name `n` for what
it stood for and `x` free. -/
structure Gives : Prop where
  given : ∃ name e', l.given.find? (·.1.text == member.name) = some (name, e') ∧ e'.getD (.var name) = e
  value : Eval.expr cfg (k + 1) env e m w = .done v m' w'
  same : m'.store.type? env n.text = after.store.type? env n.text
  free : (m'.store.scope env.here).vars.lookup x.text = none

/-- The name is not that of the struct, and the type arguments leave the type as it is; or it is that of
the struct, and the value is no object without a tag. -/
def Comparable : Prop :=
  n.text ≠ l.struct ∧ (l.args = [] ∨ type.subst (.ofArgs l.params l.args) = type) ∨
    n.text = l.struct ∧ l.struct ≠ "" ∧ ∀ a, v = .object a → (m'.store.object a).tag ≠ none

/-- The literal takes the value for the member and the variable `x` can be declared with it under the
annotation, or the type does not accept it and both fail. -/
def Agrees : Prop :=
  let inner := Eval.inner cfg (k + 1) ω
  let declaration := Eval.stmt cfg (k + 2) env (.varDecl ⟨.final, x, some (.named n), some e⟩) m w
  m'.store.accepts env type v = true ∧ l.Takes inner env member v m w m' w' ∧
      (∃ m₁ w₁, declaration = .done (.normal v) m₁ w₁) ∨
    m'.store.accepts env type v = false ∧ l.Refuses inner env member v m w m' ∧
      ∃ fault w₁, declaration = .failed fault m' w₁

/-- Whatever value the literal is given for the member: it agrees with the annotation where the two are
comparable, and for a member of the struct's own type it takes every object without a tag. -/
def AsAnnotated (ω : Type) [Observer ω] : Prop :=
  ∀ k e v x m m' (w w' : ω), l.Gives cfg env member n x e v after m m' k w w' →
    (l.Comparable n type v m' → l.Agrees cfg env member n x type e v m m' k w w') ∧
    (n.text = l.struct → ∀ a, v = .object a → (m'.store.object a).tag = none →
      l.Takes (Eval.inner cfg (k + 1) ω) env member v m w m' w')

end Literal

/-- After the declaration of a struct its literals start with its members. A member that is declared with
the name `n` of a type is treated as a variable that is annotated with `n`. -/
theorem Eval.member_as_annotated {struct : Name} {params : List TypeParam} {fields : List FieldDecl}
    {span : Span} {flow : Flow} (hpath : ∀ a ∈ env.path, a < m.store.scopes.size)
    (hdecl : Eval.stmt cfg fuel env (.typeDecl struct params (.struct fields span)) m w =
      .done flow m' w') :
    ∃ bounds members, m'.store.type? env struct.text = some (.struct struct.text bounds members) ∧
      members.length = fields.length ∧ ∀ args given,
      let literal : Literal := ⟨struct.text, struct.text, bounds, members, args, given⟩
      literal.Starts cfg env m' ω struct ∧
      ∀ field member, (field, member) ∈ fields.zip members → ∀ n, field.type = .named n →
        n.text ∉ params.map (·.name.text) →
        member.name = field.name.text ∧ ∃ type, m'.store.evalType env [] (.named n) = .ok type ∧
          literal.AsAnnotated cfg env member n type m' ω := by
  obtain ⟨bounds, subst, members, hparams, hmembers, hstruct, hothers⟩ := Eval.of_structDecl hpath hdecl
  refine ⟨bounds, members, hstruct, (Store.evalFields_zip hmembers).1, fun args given => ⟨?_, ?_⟩⟩
  · intro k typeArgs span m₁ w₁ htype hargs hcheck
    exact Eval.object_resume (htype.trans hstruct) hargs hcheck
  intro field member hmem n hn hparam
  have hlookup : subst.lookup n.text = none :=
    (Store.evalTypeParams_lookup hparams hparam).trans rfl
  obtain ⟨hname, -, htype⟩ := Store.evalStruct_named hmembers hmem hn hlookup
  refine ⟨hname, ?_⟩
  have hexists : ∃ type, m'.store.type? env n.text = some type ∧
      (n.text ≠ struct.text → member.type = type) ∧
      (n.text = struct.text → type = .struct struct.text bounds members ∧
        member.type = .struct struct.text bounds []) := by
    split at htype <;> rename_i hself
    · refine ⟨_, hself ▸ hstruct, fun h => absurd hself h, fun _ => ⟨rfl, ?_⟩⟩
      exact (Option.some.inj htype).symm
    · exact ⟨_, (hothers _ hself).trans htype, fun _ => rfl, fun h => absurd h hself⟩
  obtain ⟨type, hafter, hother, hself⟩ := hexists
  refine ⟨type, (Store.evalType_named rfl).2 hafter, ?_⟩
  intro k e v x m₁ m₂ w₁ w₂ hgives
  obtain ⟨name, e', hgiven, rfl⟩ := hgives.given
  have hproperty : (Eval.inner cfg (k + 1) ω).property env name e' m₁ w₁ = .done v m₂ w₂ := by
    rw [Inner.property_eq]
    exact hgives.value
  have htype' : m₂.store.evalType env [] (.named n) = .ok type :=
    (Store.evalType_named rfl).2 (hgives.same.trans hafter)
  have hannotated := Eval.annotated_declares (x := x) hgives.value htype' hgives.free
  constructor
  · intro hcases
    -- the type that the literal asks for accepts the same values
    have haccepts : m₂.store.accepts env (member.type.subst (.ofArgs bounds args)) v =
        m₂.store.accepts env type v := by
      rcases hcases with ⟨hne, hargs⟩ | ⟨heq, hnamed, htagged⟩
      · rw [hother hne]
        rcases hargs with rfl | hargs
        · rw [Subst.ofArgs_nil, Ty.subst_nil]
        · rw [hargs]
      · obtain ⟨rfl, hplaceholder⟩ := hself heq
        rw [hplaceholder]
        exact Store.accepts_struct_members hnamed htagged [] members
    cases hverdict : m₂.store.accepts env type v with
    | true =>
      rw [hverdict, if_pos rfl] at hannotated
      exact .inl ⟨hverdict, Literal.takes hgiven hproperty (haccepts.trans hverdict), hannotated⟩
    | false =>
      rw [hverdict, if_neg Bool.false_ne_true] at hannotated
      exact .inr ⟨hverdict, Literal.refuses hgiven hproperty (haccepts.trans hverdict), hannotated⟩
  · intro heq a ha htag
    refine Literal.takes hgiven hproperty ?_
    rw [Literal.expected, (hself heq).2, ha]
    exact Store.accepts_placeholder htag

end

/-! ### Structs with two members -/

/-- A machine with an alias of texts, a generic struct, and variables for a text, a truth value, an
object that fits the generic struct and an object without properties. -/
def textsAndBoxes : Machine where
  store :=
    { scopes := #[{ vars := [("t", ⟨.text "a", .final, none⟩), ("b", ⟨.bool true, .final, none⟩),
          ("o", ⟨.object 0, .final, none⟩), ("e", ⟨.object 1, .final, none⟩)]
                    types := [("Q", .aliased "Q" (.primitive .text)),
          ("Box", .struct "Box" [⟨"T", none⟩] [⟨"v", .param "T" none, false⟩])] }]
      objects := #[⟨none, [], [("v", .text "a")]⟩, ⟨none, [], []⟩] }

/-- The declaration of a struct with members of named types of which the second is
optional. -/
def twoMemberDecl (struct : String) (params : List String) (first second : String) : Stmt :=
  .typeDecl ⟨struct, .nowhere⟩ (params.map fun p => ⟨⟨p, .nowhere⟩, none⟩)
    (.struct [⟨⟨"first", .nowhere⟩, .named ⟨first, .nowhere⟩, false⟩,
      ⟨⟨"second", .nowhere⟩, .named ⟨second, .nowhere⟩, true⟩] .nowhere)

/-- A literal of a struct whose first members are given by variables. -/
def literalOf (struct : String) (typeArgs : List TypeExpr) (given : List (String × String)) : Expr :=
  .object (some ⟨struct, .nowhere⟩) typeArgs
    (given.map fun p => (⟨p.1, .nowhere⟩, some (.var ⟨p.2, .nowhere⟩))) .nowhere

/-- The variable `x` annotated with the name of a type. -/
def annotatedVar (type source : String) : Stmt :=
  .varDecl ⟨.final, ⟨"x", .nowhere⟩, some (.named ⟨type, .nowhere⟩), some (.var ⟨source, .nowhere⟩)⟩

/-- The machine `textsAndBoxes` after a declaration. -/
def afterDecl (decl : Stmt) : Machine :=
  (Eval.stmt { file := "main" } 1 ⟨0, []⟩ decl textsAndBoxes ()).machine?.getD textsAndBoxes

theorem accepts_textAlias (s : Store) (env : Env) (x : Value) (hx : ∀ a, x ≠ .object a) :
    s.accepts env (.aliased "Q" (.primitive .text)) x = (s.typeOf x).fits (.primitive .text) := by
  rw [Store.accepts_aliased, Store.accepts_eq_verdict rfl (by rintro _ _ ⟨⟩)]
  cases x with
  | object a => exact absurd rfl (hx a)
  | _ => rfl

/-- With `type S { first: Q, second?: S }` a text is taken for the first member and for a variable of
type `Q`, and a truth value is refused for both. -/
theorem twoMemberDecl_as_annotated :
    (∀ a ∈ Env.path ⟨0, []⟩, a < textsAndBoxes.store.scopes.size) ∧
    (∃ flow, Eval.stmt { file := "main" } 1 ⟨0, []⟩ (twoMemberDecl "S" [] "Q" "S") textsAndBoxes () =
      .done flow (afterDecl (twoMemberDecl "S" [] "Q" "S")) ()) ∧
    (∃ v m, Eval.expr { file := "main" } 3 ⟨0, []⟩ (literalOf "S" [] [("first", "t")])
      (afterDecl (twoMemberDecl "S" [] "Q" "S")) () = .done v m ()) ∧
    (∃ v m, Eval.stmt { file := "main" } 3 ⟨0, []⟩ (annotatedVar "Q" "t")
      (afterDecl (twoMemberDecl "S" [] "Q" "S")) () = .done v m ()) ∧
    (∃ fault m, Eval.expr { file := "main" } 3 ⟨0, []⟩ (literalOf "S" [] [("first", "b")])
      (afterDecl (twoMemberDecl "S" [] "Q" "S")) () = .failed fault m ()) ∧
    ∃ fault m, Eval.stmt { file := "main" } 3 ⟨0, []⟩ (annotatedVar "Q" "b")
      (afterDecl (twoMemberDecl "S" [] "Q" "S")) () = .failed fault m () := by
  have hpath : ∀ a ∈ Env.path ⟨0, []⟩, a < textsAndBoxes.store.scopes.size := by decide
  have hdecl : Eval.stmt { file := "main" } 1 ⟨0, []⟩ (twoMemberDecl "S" [] "Q" "S") textsAndBoxes () =
      .done (.normal (.type _)) (afterDecl (twoMemberDecl "S" [] "Q" "S")) () := rfl
  obtain ⟨bounds, members, hstruct, -, hliterals⟩ := Eval.member_as_annotated hpath hdecl
  have hknown : (afterDecl (twoMemberDecl "S" [] "Q" "S")).store.type? ⟨0, []⟩ "S" = some (.struct "S" []
      [⟨"first", .aliased "Q" (.primitive .text), false⟩, ⟨"second", .struct "S" [] [], true⟩]) := rfl
  obtain ⟨-, hbounds, hmembers⟩ := Ty.struct.inj (Option.some.inj (hknown.symm.trans hstruct))
  subst hbounds hmembers
  refine ⟨hpath, ⟨_, hdecl⟩, ?_⟩
  let after := afterDecl (twoMemberDecl "S" [] "Q" "S")
  have htext : after.store.accepts ⟨0, []⟩ (.aliased "Q" (.primitive .text)) (.text "a") = true := by
    rw [accepts_textAlias _ _ (.text "a") (by rintro _ ⟨⟩)]
    show Ty.fits (.primitive .text) (.primitive .text) = true
    simp [Ty.fits, Ty.matchesForm]
  have hbool : after.store.accepts ⟨0, []⟩ (.aliased "Q" (.primitive .text)) (.bool true) = false := by
    rw [accepts_textAlias _ _ (.bool true) (by rintro _ ⟨⟩)]
    show Ty.fits (.primitive .bool) (.primitive .text) = false
    simp [Ty.fits, Ty.matchesForm, Ty.isDynamic]
  refine and_assoc.1 ⟨?_, ?_⟩
  · obtain ⟨hstart, hmember⟩ := hliterals [] [(⟨"first", .nowhere⟩, some (.var ⟨"t", .nowhere⟩))]
    obtain ⟨-, type, htype, hverdict⟩ := hmember _ _ List.mem_cons_self ⟨"Q", .nowhere⟩ rfl
      (by rintro ⟨⟩)
    cases htype
    rcases (hverdict 1 _ (.text "a") ⟨"x", .nowhere⟩ after after () () ⟨⟨_, _, rfl, rfl⟩, rfl, rfl, rfl⟩).1
      (.inl ⟨by decide, .inl rfl⟩) with ⟨-, htakes, m, w, hdone⟩ | ⟨hrefused, -⟩
    · exact ⟨⟨_, _, (hstart 2 [] .nowhere after () rfl rfl (.inl rfl)).trans (htakes [] _)⟩, _, m, hdone⟩
    · cases htext.symm.trans hrefused
  · obtain ⟨hstart, hmember⟩ := hliterals [] [(⟨"first", .nowhere⟩, some (.var ⟨"b", .nowhere⟩))]
    obtain ⟨-, type, htype, hverdict⟩ := hmember _ _ List.mem_cons_self ⟨"Q", .nowhere⟩ rfl
      (by rintro ⟨⟩)
    cases htype
    rcases (hverdict 1 _ (.bool true) ⟨"x", .nowhere⟩ after after () () ⟨⟨_, _, rfl, rfl⟩, rfl, rfl, rfl⟩).1
      (.inl ⟨by decide, .inl rfl⟩) with ⟨htaken, -⟩ | ⟨-, hrefuses, fault, w, hfailed⟩
    · cases htaken.symm.trans hbool
    · obtain ⟨w', hends⟩ := hrefuses [] _
      exact ⟨⟨_, _, (hstart 2 [] .nowhere after () rfl rfl (.inl rfl)).trans hends⟩, fault, after, hfailed⟩

/-- With `type Node { first: Q, second?: Node }` an object without properties is taken for the second
member, and refused for a variable of type `Node`. With `type Wrap<T> { first: Box, second?: Q }` the
argument of a literal reaches the parameter of `Box`, so that the literal refuses what a variable of
type `Box` takes. -/
theorem twoMemberDecl_differs :
    ((∃ v m, Eval.expr { file := "main" } 3 ⟨0, []⟩
        (literalOf "Node" [] [("first", "t"), ("second", "e")])
        (afterDecl (twoMemberDecl "Node" [] "Q" "Node")) () = .done v m ()) ∧
      ∃ fault m, Eval.stmt { file := "main" } 3 ⟨0, []⟩ (annotatedVar "Node" "e")
        (afterDecl (twoMemberDecl "Node" [] "Q" "Node")) () = .failed fault m ()) ∧
    (∃ fault m, Eval.expr { file := "main" } 3 ⟨0, []⟩
        (literalOf "Wrap" [.primitive .bool .nowhere] [("first", "o")])
        (afterDecl (twoMemberDecl "Wrap" ["T"] "Box" "Q")) () = .failed fault m ()) ∧
      ∃ v m, Eval.stmt { file := "main" } 3 ⟨0, []⟩ (annotatedVar "Box" "o")
        (afterDecl (twoMemberDecl "Wrap" ["T"] "Box" "Q")) () = .done v m () := by
  let node := afterDecl (twoMemberDecl "Node" [] "Q" "Node")
  let wrap := afterDecl (twoMemberDecl "Wrap" ["T"] "Box" "Q")
  let nodeLiteral : Literal := ⟨"Node", "Node", [], [⟨"first", .aliased "Q" (.primitive .text), false⟩,
    ⟨"second", .struct "Node" [] [], true⟩], [], [(⟨"first", .nowhere⟩, some (.var ⟨"t", .nowhere⟩)),
    (⟨"second", .nowhere⟩, some (.var ⟨"e", .nowhere⟩))]⟩
  let wrapLiteral : Literal := ⟨"Wrap", "Wrap", [⟨"T", none⟩],
    [⟨"first", .struct "Box" [⟨"T", none⟩] [⟨"v", .param "T" none, false⟩], false⟩,
      ⟨"second", .aliased "Q" (.primitive .text), true⟩], [.primitive .bool],
    [(⟨"first", .nowhere⟩, some (.var ⟨"o", .nowhere⟩))]⟩
  have hbox (t : Ty) : wrap.store.accepts ⟨0, []⟩ (.struct "Box" [⟨"T", none⟩] [⟨"v", t, false⟩])
      (.object 0) = true ↔ Ty.fits (.primitive .text) t = true := by
    rw [Store.accepts_untagged rfl (Store.typeOf_eq_shape (.object 0)), List.forall_mem_singleton]
    exact Iff.rfl
  refine ⟨⟨?_, ?_⟩, ?_, ?_⟩
  · have hstart : Eval.expr { file := "main" } 3 ⟨0, []⟩
        (literalOf "Node" [] [("first", "t"), ("second", "e")]) node () =
        nodeLiteral.resume (Eval.inner { file := "main" } 2 Unit) ⟨0, []⟩ [] nodeLiteral.members node () :=
      Eval.object_resume rfl rfl (.inl rfl)
    have hfirst : nodeLiteral.Takes (Eval.inner { file := "main" } 2 Unit) ⟨0, []⟩
        ⟨"first", .aliased "Q" (.primitive .text), false⟩ (.text "a") node () node () := by
      refine Literal.takes (e := some (.var ⟨"t", .nowhere⟩)) rfl rfl ?_
      refine (accepts_textAlias _ _ (.text "a") nofun).trans ?_
      show Ty.fits (.primitive .text) (.primitive .text) = true
      simp [Ty.fits, Ty.matchesForm]
    have hsecond : nodeLiteral.Takes (Eval.inner { file := "main" } 2 Unit) ⟨0, []⟩
        ⟨"second", .struct "Node" [] [], true⟩ (.object 1) node () node () :=
      Literal.takes (e := some (.var ⟨"e", .nowhere⟩)) rfl rfl (Store.accepts_placeholder rfl)
    exact ⟨_, _, hstart.trans ((hfirst [] _).trans (hsecond _ []))⟩
  · have hrefused : node.store.accepts ⟨0, []⟩ (.struct "Node" [] nodeLiteral.members) (.object 1) =
        false := by
      rw [Bool.eq_false_iff]
      intro haccepts
      have hmissing := (Store.accepts_untagged rfl (Store.typeOf_eq_shape (.object 1))).1 haccepts _
        List.mem_cons_self
      cases hmissing
    have hdeclares : if node.store.accepts ⟨0, []⟩ (.struct "Node" [] nodeLiteral.members) (.object 1)
        then _ else ∃ fault w, Eval.stmt { file := "main" } 3 ⟨0, []⟩ (annotatedVar "Node" "e") node () =
          .failed fault node w :=
      Eval.annotated_declares (w := ()) rfl rfl rfl
    rw [hrefused, if_neg Bool.false_ne_true] at hdeclares
    obtain ⟨fault, w, hfailed⟩ := hdeclares
    exact ⟨fault, node, hfailed⟩
  · have hstart : Eval.expr { file := "main" } 3 ⟨0, []⟩
        (literalOf "Wrap" [.primitive .bool .nowhere] [("first", "o")]) wrap () =
        wrapLiteral.resume (Eval.inner { file := "main" } 2 Unit) ⟨0, []⟩ [] wrapLiteral.members wrap () :=
      Eval.object_resume rfl rfl (.inr rfl)
    have hrefuses : wrapLiteral.Refuses (Eval.inner { file := "main" } 2 Unit) ⟨0, []⟩
        ⟨"first", .struct "Box" [⟨"T", none⟩] [⟨"v", .param "T" none, false⟩], false⟩ (.object 0)
        wrap () wrap := by
      refine Literal.refuses (e := some (.var ⟨"o", .nowhere⟩)) rfl rfl ?_
      rw [Bool.eq_false_iff]
      intro haccepts
      have hfits : Ty.fits (.primitive .text) (.primitive .bool) = true := (hbox _).1 haccepts
      simp [Ty.fits, Ty.matchesForm, Ty.isDynamic] at hfits
    obtain ⟨w, hfailed⟩ := hrefuses [] _
    exact ⟨_, _, hstart.trans hfailed⟩
  · have haccepted : wrap.store.accepts ⟨0, []⟩
        (.struct "Box" [⟨"T", none⟩] [⟨"v", .param "T" none, false⟩]) (.object 0) = true :=
      (hbox _).2 (Ty.fits_free rfl rfl)
    have hdeclares : if wrap.store.accepts ⟨0, []⟩ (.struct "Box" [⟨"T", none⟩]
        [⟨"v", .param "T" none, false⟩]) (.object 0)
        then ∃ m w, Eval.stmt { file := "main" } 3 ⟨0, []⟩ (annotatedVar "Box" "o") wrap () =
          .done (.normal (.object 0)) m w else _ :=
      Eval.annotated_declares (w := ()) rfl rfl rfl
    rw [haccepted, if_pos rfl] at hdeclares
    obtain ⟨m, w, hdone⟩ := hdeclares
    exact ⟨_, m, hdone⟩

end Sable
