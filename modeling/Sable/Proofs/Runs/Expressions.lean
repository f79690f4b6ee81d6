import Sable.Proofs.Runs.Moments

/-!
# Expressions run lawfully

`Lawful` for every rule of expressions, from `LawfulInner` for what is inside. A function that is called
is in the store or among the values at hand, so its body is lawful code.
-/

namespace Sable

/-- The evaluators for what is inside are lawful. -/
structure LawfulInner (law : CodeLaw) (cfg : Config)
    (inner : ∀ (ω : Type) [Observer ω], Inner ω) : Prop where
  expr : ∀ env e (_ : law.expr e := by trivial),
    Lawful law cfg (fun ω _ => (inner ω).expr env e) law.value
  /-- Plain expressions may be evaluated while a call is waiting. -/
  plain : ∀ env e, law.expr e → e.Plain →
    Lawful law cfg (fun ω _ => (inner ω).expr env e) law.value true
  stmt : ∀ env s, law.stmt s → Lawful law cfg (fun ω _ => (inner ω).stmt env s) (Flow.From law [s])

/-- Neither a function nor a type. -/
def Value.isData : Value → Bool
  | .function _ | .type _ => false
  | _ => true

theorem Value.ne_function_of_isData {v : Value} (h : v.isData = true) (f : Closure) :
    v ≠ .function f := by
  rintro rfl
  cases h

/-- Data are not bound by a law of code. -/
theorem CodeLaw.value_of_isData {law : CodeLaw} {v : Value} (h : v.isData = true) : law.value v := by
  cases v with
  | function f | type t => cases h
  | _ => trivial

section

variable {law : CodeLaw} {cfg : Config} {w : Bool}

/-! ### Operators and built-in functions -/

theorem BinaryOp.apply_isData (op : BinaryOp) (left right : Value) :
    (op.apply left right).isData = true := by
  unfold BinaryOp.apply
  split
  · cases op <;> rfl
  · cases op <;> rfl
  · cases op <;> rfl
  · split <;> rfl
  · split <;> rfl
  · rfl

theorem BinaryOp.apply_ne_function (op : BinaryOp) (left right : Value) (f : Closure) :
    op.apply left right ≠ .function f :=
  Value.ne_function_of_isData (op.apply_isData left right) f

theorem UnaryOp.apply_isData (op : UnaryOp) (operand : Value) : (op.apply operand).isData = true := by
  unfold UnaryOp.apply
  split <;> rfl

theorem UnaryOp.apply_ne_function (op : UnaryOp) (operand : Value) (f : Closure) :
    op.apply operand ≠ .function f :=
  Value.ne_function_of_isData (op.apply_isData operand) f

namespace Builtin

theorem single_lawful (f : Builtin) {args : List Value} (h : ∀ v ∈ args, law.value v) :
    Lawful law cfg (fun ω _ => (f.single args : Eval ω Value)) law.value := by
  unfold single
  split
  · rename_i v
    exact .pure (h v (by simp))
  · exact .raise fun _ => rfl

theorem length_lawful (v : Value) :
    Lawful law cfg (fun ω _ => (length v : Eval ω Nat)) fun _ => True := by
  unfold length
  split
  · exact .pure trivial
  · exact .look
  · exact .look
  · exact .raise fun _ => rfl

theorem call_lawful (f : Builtin) {args : List Value} (h : ∀ v ∈ args, law.value v) :
    Lawful law cfg (fun ω _ => (f.call cfg args : Eval ω Value)) law.value := by
  cases f with
  | print =>
    exact .bind .look fun line _ =>
      .bind (.print (fun _ => [line]) fun _ => rfl) fun _ _ => .pure trivial
  | len => exact .bind (single_lawful _ h) fun v _ => .bind (length_lawful v) fun _ _ => .pure trivial
  | typeof | str =>
    exact .bind (single_lawful _ h) fun v _ => .bind .look fun _ _ => .pure trivial
  | time => exact .bind (.consult _) fun _ _ => .bind .countReading fun _ _ => .pure trivial
  | trace =>
    exact .bind (.print (fun c => Text.lines (c.trace cfg)) fun _ => rfl) fun _ _ => .pure trivial

end Builtin

/-- What is given for a property is inside the literal. -/
theorem Expr.mem_parts_object {struct : Option Name} {typeArgs : List TypeExpr}
    {given : List (Name × Option Expr)} {span : Span} {p : Name × Option Expr} {e : Expr}
    (hp : p ∈ given) (he : e ∈ p.2) : e ∈ (Expr.object struct typeArgs given span).parts :=
  List.mem_filterMap.2 ⟨p, hp, he⟩

theorem newScope_lawful (env : Env) :
    Lawful law cfg (fun ω _ => (Eval.create (·.newScope env) : Eval ω Env)) (fun _ => True) w :=
  .create fun _ _ => ⟨trivial, .scope env⟩

theorem demand_lawful (env : Env) (type : Ty) (v : Value) {fault : Ty → Fault}
    (h : ∀ actual, (fault actual).isDefensive = false) :
    Lawful law cfg (fun ω _ => (Eval.demand env type v fault : Eval ω Unit)) (fun _ => True) w := by
  refine .check fun _ s => ?_
  split
  · exact .ok _
  · exact .error (h _)

theorem demand?_lawful (env : Env) (type : Option Ty) (v : Value) {fault : Ty → Ty → Fault}
    (h : ∀ asked actual, (fault asked actual).isDefensive = false) :
    Lawful law cfg (fun ω _ => (Eval.demand? env type v fault : Eval ω Unit)) (fun _ => True) w := by
  cases type with
  | none => exact .pure trivial
  | some type => exact demand_lawful env type v (h type)

/-- An annotation stands for a type of the law. -/
theorem evalResult_lawful {env : Env} {subst : Subst} (hsubst : ∀ p ∈ subst, law.held p.2)
    {e : Option TypeExpr} (he : ∀ x ∈ e.toList, law.written x) :
    Lawful law cfg (fun ω _ => (Eval.resolve e.toList fun store => store.evalResult env subst e :
      Eval ω (Option Ty))) (fun type => ∀ t ∈ type, law.held t) w := by
  refine .resolve he (fun hproper s => ?_) fun s _ hs => ?_
  · exact s.regular_evalResult fun t ht => s.regular_evalType (hproper t (Option.mem_toList.2 ht))
  · exact hs.evalResult hsubst fun x hx => he x (Option.mem_toList.2 hx)

theorem evalTypeParams_lawful {env : Env} {params : List TypeParam}
    (h : ∀ t ∈ TypeParam.bounds params, law.written t) :
    Lawful law cfg (fun ω _ => (Eval.resolve (TypeParam.bounds params) fun store =>
      store.evalTypeParams env params : Eval ω (List Bound × Subst)))
      (fun x => (∀ p ∈ x.1, ∀ t ∈ p.bound, law.held t) ∧ ∀ p ∈ x.2, law.held p.2) w :=
  .resolve h (fun hproper s => s.regular_evalTypeParams hproper) fun _ _ hs =>
    hs.evalTypeParams (List.forall_mem_nil _) h

/-- A slot is below the number of slots. -/
theorem Number.slot?_lt {x : Float} {size slot : Nat} (h : Number.slot? x size = some slot) :
    slot < size := by
  unfold Number.slot? at h
  split at h
  · dsimp only at h
    split at h
    · rename_i hcond
      cases h
      exact hcond.2.2
    · cases h
  · cases h

theorem writeMember_lawful (env : Env) (container key : Value) {v : Value} (hv : law.value v)
    (path : String) :
    Lawful law cfg (fun ω _ => (Inner.writeMember env container key v path : Eval ω Unit))
      (fun _ => True) w := by
  unfold Inner.writeMember
  split
  · rename_i a field
    refine .step fun m _ => ?_
    cases hc : m.store.checkField env (m.store.object a) field v with
    | ok u => exact .inl ⟨(), _, trivial, .wrote (.property hv hc), .refl m, trivial,
        fun _ => nofun, rfl, fun _ _ _ => by simp only [Bind.bind, Eval.bind, Eval.query, hc]; rfl⟩
    | error fault => exact .inr ⟨fault, fun _ => m.store.regular_checkField _ _ _ _ fault hc,
        fun _ _ _ => by simp only [Bind.bind, Eval.bind, Eval.query, hc]; rfl⟩
  · rename_i a x
    refine .changing fun m _ => ?_
    cases hslot : Number.slot? x (m.store.array a).size with
    | some slot =>
      have hlt := Number.slot?_lt hslot
      exact .inl ⟨(), _, trivial, .element hv hlt, fun _ _ _ => by
        simp only [Bind.bind, Eval.bind, Eval.ask, hslot]; rfl⟩
    | none => exact .inr ⟨.indexOutOfBounds x path, fun _ => rfl, fun _ _ _ => by
        simp only [Bind.bind, Eval.bind, Eval.ask, hslot]⟩
  · exact .raise fun _ => rfl
  · exact .bind .look fun _ _ => .raise fun _ => rfl

/-! ### What is inside a literal or an assignment

Whatever may be evaluated while a call is waiting, so may be what it is inside of. -/

section

variable {inner : ∀ (ω : Type) [Observer ω], Inner ω} {env : Env}

theorem exprs_lawful {es : List Expr}
    (h : ∀ e ∈ es, Lawful law cfg (fun ω _ => (inner ω).expr env e) law.value w) :
    Lawful law cfg (fun ω _ => (inner ω).exprs env es) (fun vs => ∀ v ∈ vs, law.value v) w := by
  induction es with
  | nil => exact .pure (by simp)
  | cons e rest ih =>
    have hrest := ih fun e he => h e (List.mem_cons_of_mem _ he)
    refine .bind (h e List.mem_cons_self) fun v hv => .bind hrest fun vs hvs => .pure ?_
    simpa using ⟨hv, hvs⟩

theorem shown_lawful {holes : List Expr}
    (h : ∀ e ∈ holes, Lawful law cfg (fun ω _ => (inner ω).expr env e) law.value w) :
    Lawful law cfg (fun ω _ => (inner ω).shown env holes) (fun _ => True) w := by
  induction holes with
  | nil => exact .pure trivial
  | cons e rest ih =>
    have hrest := ih fun e he => h e (List.mem_cons_of_mem _ he)
    exact .bind (h e List.mem_cons_self) fun v _ => .bind .look fun _ _ =>
      .bind hrest fun _ _ => .pure trivial

theorem template_lawful (text : String) (names : List String) {holes : List Expr}
    (h : ∀ e ∈ holes, Lawful law cfg (fun ω _ => (inner ω).expr env e) law.value w) :
    Lawful law cfg (fun ω _ => (inner ω).template env text names holes) law.value w :=
  .ite (fun _ => .pure trivial) fun _ =>
    .bind (shown_lawful h) fun _ _ => .bind (.check fun _ s => Template.regular_fill _ _
      (fun name => (s.regular_lookup env name).map _) _) fun _ _ => .pure trivial

theorem property_lawful (name : Name) {e : Option Expr}
    (h : ∀ x ∈ e, Lawful law cfg (fun ω _ => (inner ω).expr env x) law.value w) :
    Lawful law cfg (fun ω _ => (inner ω).property env name e) law.value w := by
  cases e with
  | some e => exact h e rfl
  | none => exact .query (fun _ s => s.regular_lookup env name.text) fun s v hs hv => hs.lookup hv

theorem anonymous_lawful {given : List (Name × Option Expr)}
    (h : ∀ p ∈ given, ∀ e ∈ p.2, Lawful law cfg (fun ω _ => (inner ω).expr env e) law.value w) :
    Lawful law cfg (fun ω _ => (inner ω).anonymous env given) (fun ps => ∀ p ∈ ps, law.value p.2)
      w := by
  induction given with
  | nil => exact .pure (by simp)
  | cons x rest ih =>
    have hrest := ih fun p hp => h p (List.mem_cons_of_mem _ hp)
    refine .bind (property_lawful x.1 (h x List.mem_cons_self)) fun v hv =>
      .bind hrest fun ps hps => .pure ?_
    intro p hp
    rcases List.mem_cons.1 hp with rfl | hp
    · exact hv
    · exact hps p hp

namespace HasMembers

variable {ps : List (String × Value)} {member : Member} {members : List Member}

theorem skip (h : HasMembers ps members) (ho : member.optional = true) :
    HasMembers ps (member :: members) where
  declared p hp := by
    obtain ⟨other, hother, hname⟩ := h.declared p hp
    exact ⟨other, List.mem_cons_of_mem _ hother, hname⟩
  required other hother hr := by
    rcases List.mem_cons.1 hother with rfl | hother
    · rw [ho] at hr
      cases hr
    · exact h.required other hother hr

theorem cons (h : HasMembers ps members) (member : Member) (v : Value) :
    HasMembers ((member.name, v) :: ps) (member :: members) where
  declared p hp := by
    rcases List.mem_cons.1 hp with rfl | hp
    · exact ⟨member, List.mem_cons_self, rfl⟩
    · obtain ⟨other, hother, hname⟩ := h.declared p hp
      exact ⟨other, List.mem_cons_of_mem _ hother, hname⟩
  required other hother hr := by
    rcases List.mem_cons.1 hother with rfl | hother
    · exact ⟨v, List.mem_cons_self⟩
    · obtain ⟨u, hu⟩ := h.required other hother hr
      exact ⟨u, List.mem_cons_of_mem _ hu⟩

end HasMembers

/-- The values of the members that are given, with nothing left out that has to be there. -/
theorem fields_lawful (struct : String) (subst : Subst) {given : List (Name × Option Expr)}
    (h : ∀ p ∈ given, ∀ e ∈ p.2, Lawful law cfg (fun ω _ => (inner ω).expr env e) law.value w)
    (members : List Member) :
    Lawful law cfg (fun ω _ => (inner ω).fields env struct subst given members)
      (fun ps => HasMembers ps members ∧ ∀ p ∈ ps, law.value p.2) w := by
  induction members with
  | nil => exact .pure ⟨⟨by simp, by simp⟩, by simp⟩
  | cons member rest ih =>
    unfold Inner.fields
    cases hx : given.find? (·.1.text == member.name) with
    | none =>
      refine .ite (fun hoptional => ih.mono fun ps hps => ⟨hps.1.skip hoptional, hps.2⟩) fun _ =>
        .raise fun _ => rfl
    | some x =>
      refine .bind (property_lawful x.1 (h x (List.mem_of_find?_eq_some hx))) fun v hv =>
        .bind (demand_lawful _ _ _ fun _ => rfl) fun _ _ => .bind ih fun ps hps =>
          .pure ⟨hps.1.cons member v, ?_⟩
      intro p hp
      rcases List.mem_cons.1 hp with rfl | hp
      · exact hv
      · exact hps.2 p hp

theorem construct_lawful (struct tag : String) (params : List Bound) {args : List Ty}
    (hargs : ∀ t ∈ args, law.held t) {given : List (Name × Option Expr)}
    (h : ∀ p ∈ given, ∀ e ∈ p.2, Lawful law cfg (fun ω _ => (inner ω).expr env e) law.value w)
    (members : List Member) :
    Lawful law cfg (fun ω _ => (inner ω).construct env struct tag params args given members)
      law.value w := by
  refine .bind (fields_lawful struct _ h members) fun properties hp => ?_
  cases given.find? fun p => (Member.find? members p.1.text).isNone with
  | some extra => exact .raise fun _ => rfl
  | none =>
    have hmade (s : Store) : Change law s (.made (.object s.objects.size) params members)
        (s.newObject ⟨some tag, args, properties⟩).2 := .made rfl hargs hp.1 hp.2
    exact .step fun m _ => .inl ⟨.object m.store.objects.size, _, trivial, .made (hmade m.store),
      .refl m, trivial, fun _ => nofun, rfl, fun _ _ _ => rfl⟩

theorem instantiate_lawful (struct : String) {typeArgs : List TypeExpr}
    (hargs : ∀ t ∈ typeArgs, law.written t) {given : List (Name × Option Expr)}
    (h : ∀ p ∈ given, ∀ e ∈ p.2, Lawful law cfg (fun ω _ => (inner ω).expr env e) law.value w) :
    Lawful law cfg (fun ω _ => (inner ω).instantiate env struct typeArgs given) law.value w := by
  refine .bind .look fun type _ => ?_
  split
  · exact .raise fun _ => rfl
  · rename_i tag params members
    have hresolve : Lawful law cfg (fun ω _ => (Eval.resolve typeArgs fun store =>
        store.evalTypes env [] typeArgs : Eval ω (List Ty))) (fun args => ∀ t ∈ args, law.held t) w :=
      .resolve hargs (fun hproper s => s.regular_evalTypes fun t ht => s.regular_evalType (hproper t ht))
        fun s args hs => hs.evalTypes (List.forall_mem_nil _) hargs
    refine .bind hresolve fun args hargs => ?_
    have hmake := construct_lawful struct tag params hargs h members
    exact .ite (fun _ => hmake) fun _ =>
      .bind (.check fun _ _ => Store.regular_checkTypeArgs _ _ _) fun _ _ => hmake
  · exact .raise fun _ => rfl

theorem object_lawful (struct : Option Name) {typeArgs : List TypeExpr}
    (hargs : ∀ t ∈ typeArgs, law.written t) {given : List (Name × Option Expr)}
    (h : ∀ p ∈ given, ∀ e ∈ p.2, Lawful law cfg (fun ω _ => (inner ω).expr env e) law.value w) :
    Lawful law cfg (fun ω _ => (inner ω).object env struct typeArgs given) law.value w := by
  cases struct with
  | some struct => exact instantiate_lawful struct.text hargs h
  | none =>
    refine .bind (anonymous_lawful h) fun ps hps => ?_
    exact .create fun _ _ => ⟨trivial, .object rfl rfl hps⟩

/-- A name stands behind a dot, if the law asks for it. -/
theorem propertyName_lawful {object property : Expr} {span : Span}
    (he : law.expr (.member object false property span)) :
    Lawful law cfg (fun ω _ => (Eval.query fun _ => property.propertyName : Eval ω String))
      (fun _ => True) w :=
  .check fun hstrict _ => Expr.regular_propertyName (hstrict.made he)

theorem assignMember_lawful {object value : Expr} {key : Action Value}
    (hobject : Lawful law cfg (fun ω _ => (inner ω).expr env object) law.value w)
    (hkey : Lawful law cfg key law.value w)
    (hvalue : Lawful law cfg (fun ω _ => (inner ω).expr env value) law.value w) :
    Lawful law cfg (fun ω _ => (inner ω).assignMember env object (key ω) value) law.value w := by
  unfold Inner.assignMember
  cases object.root? with
  | none => exact .raise fun _ => rfl
  | some root =>
    refine .bind (.check fun _ s => s.regular_checkMutable env root) fun _ _ =>
      .bind hobject fun container _ => ?_
    refine .bind hkey fun k _ => .bind hvalue fun v hv => ?_
    exact .bind (writeMember_lawful env container k hv object.path) fun _ _ => .pure hv

end

namespace LawfulInner

variable {inner : ∀ (ω : Type) [Observer ω], Inner ω} (hi : LawfulInner law cfg inner)

include hi

/-- Statements in order end as one of them does. -/
theorem bodyFrom (env : Env) {last : Value} (hlast : law.value last) {stmts : List Stmt}
    (h : ∀ s ∈ stmts, law.stmt s) :
    Lawful law cfg (fun ω _ => (inner ω).bodyFrom env last stmts) (Flow.From law stmts) := by
  induction stmts generalizing last with
  | nil => exact .pure hlast
  | cons s rest ih =>
    refine .bind (hi.stmt env s (h s List.mem_cons_self)) fun flow hflow => ?_
    cases flow with
    | normal v =>
      refine (ih hflow fun t ht => h t (List.mem_cons_of_mem _ ht)).mono fun flow hrest => ?_
      exact hrest.subset (List.subset_cons_self s rest)
    | _ => exact .pure (hflow.subset (by simp))

theorem body (env : Env) {stmts : List Stmt} (h : ∀ s ∈ stmts, law.stmt s) :
    Lawful law cfg (fun ω _ => (inner ω).body env stmts) (Flow.From law stmts) := by
  have hnothing : law.value .nothing := trivial
  exact hi.bodyFrom env hnothing h

theorem block (env : Env) {stmts : List Stmt} (h : ∀ s ∈ stmts, law.stmt s) :
    Lawful law cfg (fun ω _ => (inner ω).block env stmts) (Flow.From law stmts) :=
  .bind (newScope_lawful env) fun scope _ => hi.body scope h

/-! ### Calls -/

theorem bindArgs (function : String) (scope : Env) {subst : Subst}
    (hsubst : ∀ p ∈ subst, law.held p.2) {args : List (Param × Value)} (h : ∀ p ∈ args, law.value p.2)
    (htypes : ∀ p ∈ args, ∀ t ∈ p.1.type.toList, law.written t)
    (hexpr : ∀ p ∈ args, ∀ e ∈ p.1.fallback, law.expr e)
    (hplain : law.Plain → ∀ p ∈ args, ∀ e ∈ p.1.fallback, e.Plain) :
    Lawful law cfg (fun ω _ => (inner ω).bindArgs function scope subst args) (fun _ => True)
      true := by
  induction args with
  | nil => exact .pure trivial
  | cons p rest ih =>
    obtain ⟨⟨name, annotation, fallback⟩, arg⟩ := p
    have harg : law.value arg := h _ List.mem_cons_self
    have hrest := ih (fun q hq => h q (List.mem_cons_of_mem _ hq))
      (fun q hq => htypes q (List.mem_cons_of_mem _ hq)) (fun q hq => hexpr q (List.mem_cons_of_mem _ hq))
      fun hp q hq => hplain hp q (List.mem_cons_of_mem _ hq)
    -- with the argument that is given, or with the fallback in its place
    have hbind (v : Value) (hv : law.value v) : Lawful law cfg (fun ω _ => (do
        let type ← Eval.resolve annotation.toList fun store => store.evalResult scope subst annotation
        Eval.demand? scope type v (.paramMismatch name.text function)
        Eval.declare scope name.text v .mutable type
        (inner ω).bindArgs function scope subst rest : Eval ω Unit)) (fun _ => True) true :=
      .bind (evalResult_lawful hsubst (htypes _ List.mem_cons_self)) fun type ht =>
        .bind (demand?_lawful _ type _ fun _ _ => rfl) fun _ _ =>
          .bind (.declare _ _ _ _ hv ht) fun _ _ => hrest
    cases fallback with
    | none => exact hbind arg harg
    | some e =>
      have hlaw : law.expr e := hexpr _ List.mem_cons_self e rfl
      have he : Lawful law cfg (fun ω _ => (inner ω).expr scope e) law.value true :=
        (hi.expr scope e hlaw).of_plain fun hp =>
          hi.plain scope e hlaw (hplain hp _ List.mem_cons_self e rfl)
      cases arg with
      | null => exact .bind he hbind
      | _ => exact hbind _ harg

theorem callFunction {f : Closure} (hf : law.function f.function) {args : List Value}
    (hargs : ∀ v ∈ args, law.value v) {receiver : Option Value}
    (hreceiver : ∀ v ∈ receiver, law.value v) {span : Span} (hsite : law.site span) :
    Lawful law cfg (fun ω _ => (inner ω).callFunction cfg f args receiver span) law.value := by
  have hbody : ∀ s ∈ f.function.body, law.stmt s := fun s hs => law.body hf hs
  have hzip : ∀ p ∈ f.function.params.zip args, law.value p.2 := fun p hp =>
    hargs p.2 (List.of_mem_zip hp).2
  have hbounds : ∀ t ∈ TypeParam.bounds f.function.typeParams, law.written t := fun t ht =>
    law.signed hf (List.mem_append_left _ (List.mem_append_left _ ht))
  have htypes : ∀ p ∈ f.function.params.zip args, ∀ t ∈ p.1.type.toList, law.written t :=
    fun p hmem t ht => law.signed hf (List.mem_append_left _ (List.mem_append_right _
      (List.mem_filterMap.2 ⟨p.1, (List.of_mem_zip hmem).1, Option.mem_toList.1 ht⟩)))
  have hresult : ∀ t ∈ f.function.result.toList, law.written t := fun t ht =>
    law.signed hf (List.mem_append_right _ ht)
  have hexpr : ∀ p ∈ f.function.params.zip args, ∀ e ∈ p.1.fallback, law.expr e :=
    fun p hmem e he => law.fallback hf (List.of_mem_zip hmem).1 he
  have hplain : law.Plain → ∀ p ∈ f.function.params.zip args, ∀ e ∈ p.1.fallback, e.Plain :=
    fun hp p hmem => hp f.function hf p.1 (List.of_mem_zip hmem).1
  -- from the arguments on
  have hrun (scope : Env) {subst : Subst} (hsubst : ∀ p ∈ subst, law.held p.2) :
      Lawful law cfg (fun ω _ => (do
      (inner ω).bindArgs f.function.name.text scope subst (f.function.params.zip args)
      let flow ← Eval.inCall cfg f.function ⟨f.function.name.text, span⟩
        ((inner ω).body scope f.function.body)
      Eval.report (.finished f.function flow)
      let type ← Eval.resolve f.function.result.toList fun store =>
        store.evalResult scope subst f.function.result
      Eval.demand? scope type flow.result (.returnMismatch f.function.name.text)
      return flow.result : Eval ω Value)) law.value true := by
    refine .bind (hi.bindArgs _ _ hsubst hzip htypes hexpr hplain) fun _ _ => ?_
    refine .bind (.inCall _ hsite (hi.body scope hbody)) fun flow hflow => ?_
    refine .bind (.report hf hflow) fun _ _ => .bind (evalResult_lawful hsubst hresult) fun type _ => ?_
    exact .bind (demand?_lawful _ type _ fun _ _ => rfl) fun _ _ => .pure hflow.result
  refine .asCall _ (.ite (fun _ => .raise fun _ => rfl) fun _ => ?_)
  refine .bind (newScope_lawful _) fun scope _ => .bind (evalTypeParams_lawful hbounds) fun x hx => ?_
  obtain ⟨⟨name, typeParams, self, params, result, body, fspan⟩, env⟩ := f
  cases self with
  | none => exact hrun scope hx.2
  | some self =>
    cases receiver with
    | none => exact hrun scope hx.2
    | some object => exact .bind (.declare _ _ _ _ (hreceiver _ rfl)) fun _ _ => hrun scope hx.2

theorem callValue {callee : Value} (hcallee : law.value callee) {args : List Value}
    (hargs : ∀ v ∈ args, law.value v) {receiver : Option Value}
    (hreceiver : ∀ v ∈ receiver, law.value v) (span : Span) (hsite : law.site span := by trivial) :
    Lawful law cfg (fun ω _ => (inner ω).callValue cfg callee args receiver span) law.value := by
  cases callee with
  | builtin f => exact f.call_lawful hargs
  | function f => exact hi.callFunction hcallee hargs hreceiver hsite
  | _ => exact .raise fun _ => rfl

/-! ### Members -/

theorem readProperty (env : Env) {object : Value} (hobject : law.value object) (name : String)
    {span : Span} (hsite : law.site span) :
    Lawful law cfg (fun ω _ => (inner ω).readProperty cfg env object name span) law.value := by
  have hobj (a : Nat) : Lawful law cfg (fun ω _ => (Eval.ask (·.object a) : Eval ω Obj))
      fun o => ∀ p ∈ o.properties, law.value p.2 := .ask fun _ hs => hs.object a
  have hgetter (tag : String) : Lawful law cfg
      (fun ω _ => (Eval.ask (·.getter? env tag name) : Eval ω (Option Value)))
      fun getter => ∀ v ∈ getter, law.value v := .ask fun _ hs _ hv => hs.getter? hv
  cases object with
  | object a =>
    refine .bind (hobj a) fun o ho => ?_
    obtain ⟨tag, typeArgs, properties⟩ := o
    cases hv : properties.lookup name with
    | some v => exact .pure (ho _ (Assoc.mem_of_lookup hv))
    | none =>
      cases tag with
      | none => exact .raise fun _ => rfl
      | some tag =>
        refine .bind (hgetter tag) fun getter hg => ?_
        cases getter with
        | some getter => exact hi.callValue (hg _ rfl) (by simp) (by simpa using hobject) span hsite
        | none =>
          exact .bind .look fun members _ => .ite (fun _ => .pure trivial) fun _ => .raise fun _ => rfl
  | array a =>
    exact .ite (fun _ => .bind .look fun _ _ => .pure trivial) fun _ => .raise fun _ => rfl
  | text s => exact .ite (fun _ => .pure trivial) fun _ => .raise fun _ => rfl
  | _ => exact .raise fun _ => rfl

theorem readIndex (env : Env) {object : Value} (hobject : law.value object) (key : Value)
    (path : String) {span : Span} (hsite : law.site span) :
    Lawful law cfg (fun ω _ => (inner ω).readIndex cfg env object key path span) law.value := by
  have hitems (a : Nat) : Lawful law cfg (fun ω _ => (Eval.ask (·.array a) : Eval ω (Array Value)))
      fun items => ∀ v ∈ items, law.value v := .ask fun _ hs => hs.array a
  unfold Inner.readIndex
  split
  · rename_i a x
    refine .bind (hitems a) fun items hitems => ?_
    cases hv : (Number.slot? x items.size).bind (items[·]?) with
    | some v =>
      obtain ⟨k, -, hk⟩ := Option.bind_eq_some_iff.1 hv
      exact .pure (hitems v (Array.mem_of_getElem? hk))
    | none => exact .raise fun _ => rfl
  · rename_i s x
    cases (Number.slot? x s.length).bind (s.toList[·]?) with
    | some c => exact .pure trivial
    | none => exact .raise fun _ => rfl
  · exact .raise fun _ => rfl
  · exact .raise fun _ => rfl
  · exact hi.readProperty env hobject _ hsite
  · exact .bind .look fun _ _ => .raise fun _ => rfl

/-! ### Every form -/

/-- What is inside a lawful expression is evaluated lawfully. -/
theorem part (env : Env) {e e' : Expr} (he : law.expr e) (h : e' ∈ e.parts) :
    Lawful law cfg (fun ω _ => (inner ω).expr env e') law.value :=
  hi.expr env e' (law.inner he h)

theorem plainPart (env : Env) {e e' : Expr} (he : law.expr e) (h : e' ∈ e.parts) (hp : e'.Plain) :
    Lawful law cfg (fun ω _ => (inner ω).expr env e') law.value true :=
  hi.plain env e' (law.inner he h) hp

theorem call (env : Env) {callee : Expr} {args : List Expr} {span : Span}
    (he : law.expr (.call callee args span)) :
    Lawful law cfg (fun ω _ => (inner ω).call cfg env callee args span) law.value := by
  have hcallee : law.expr callee := law.inner he List.mem_cons_self
  -- from the function on, with or without a receiver
  have happly {f : Value} (hf : law.value f) {receiver : Option Value}
      (hr : ∀ v ∈ receiver, law.value v) : Lawful law cfg (fun ω _ => (do
        let args ← (inner ω).exprs env args
        (inner ω).callValue cfg f args receiver span : Eval ω Value)) law.value :=
    .bind (exprs_lawful fun e hmem => hi.part env he (List.mem_cons_of_mem _ hmem)) fun vs hvs =>
      hi.callValue hf hvs hr span (law.called he rfl)
  have hnone : ∀ v ∈ (none : Option Value), law.value v := (by simp)
  -- what is behind a dot is a name, computed or not
  cases callee using Expr.casesOn with
  | member object computed property memberSpan =>
    cases computed with
    | true => exact .bind (hi.expr env _ hcallee) fun f hf => happly hf hnone
    | false =>
    refine .bind (hi.part env hcallee (Expr.object_mem_parts ..)) fun object hobject => ?_
    refine .bind (propertyName_lawful hcallee) fun name _ => ?_
    have hread : Lawful law cfg (fun ω _ => (do
        let f ← (inner ω).readProperty cfg env object name memberSpan
        let args ← (inner ω).exprs env args
        (inner ω).callValue cfg f args none span : Eval ω Value)) law.value :=
      .bind (hi.readProperty env hobject name (law.called hcallee rfl)) fun f hf =>
        happly hf hnone
    cases object with
    | object a =>
      have hmethod : Lawful law cfg (fun ω _ => (Eval.ask fun store =>
          (store.object a).tag.bind fun tag => store.method? env tag name :
            Eval ω (Option Value))) fun method => ∀ v ∈ method, law.value v := by
        refine .ask fun s hs v hv => ?_
        obtain ⟨tag, -, htag⟩ := Option.bind_eq_some_iff.1 hv
        exact hs.method? htag
      refine .bind hmethod fun method hm => ?_
      cases method with
      | some method => exact happly (hm _ rfl) (by simpa using hobject)
      | none => exact hread
    | _ => exact hread
  | _ => exact .bind (hi.expr env _ hcallee) fun f hf => happly hf hnone

theorem assign (env : Env) {target value : Expr} (he : law.expr (.assign target value)) :
    Lawful law cfg (fun ω _ => (inner ω).assign env target value) law.value := by
  have htarget : law.expr target := law.inner he List.mem_cons_self
  have hvalue := hi.part env he (List.mem_cons_of_mem _ List.mem_cons_self)
  cases target using Expr.casesOn with
  | var name => exact .bind hvalue fun v hv => .bind (.assign env name.text hv) fun _ _ => .pure hv
  | member object computed property span =>
    refine assignMember_lawful (hi.part env htarget (Expr.object_mem_parts ..)) ?_ hvalue
    cases computed with
    | true => exact hi.part env htarget (List.mem_cons_of_mem _ List.mem_cons_self)
    | false => exact .bind (propertyName_lawful htarget) fun _ _ => .pure trivial
  | _ => exact .raise fun hstrict => nomatch hstrict.made he

theorem exprRule (env : Env) {e : Expr} (he : law.expr e) :
    Lawful law cfg (fun ω _ => Inner.exprRule cfg (inner ω) env e) law.value := by
  cases e using Expr.casesOn with
  | var name => exact .query (fun _ s => s.regular_lookup env name.text) fun s v hs hv => hs.lookup hv
  | number value span => exact .pure trivial
  | text text names holes span => exact template_lawful text names fun _ hmem => hi.part env he hmem
  | array elements span =>
    refine .bind (exprs_lawful fun _ hmem => hi.part env he hmem) fun items hitems =>
      .create fun _ _ => ⟨trivial, .array ?_⟩
    simpa using hitems
  | object struct typeArgs given span =>
    exact object_lawful struct (fun _ ht => law.given he ht) fun p hp e hmem =>
      hi.part env he (Expr.mem_parts_object hp hmem)
  | unary op operand span =>
    exact .bind (hi.part env he List.mem_cons_self) fun v _ =>
      .pure (CodeLaw.value_of_isData (op.apply_isData v))
  | binary op left right =>
    exact .bind (hi.part env he List.mem_cons_self) fun v _ =>
      .bind (hi.part env he (List.mem_cons_of_mem _ List.mem_cons_self)) fun w _ =>
        .pure (CodeLaw.value_of_isData (op.apply_isData v w))
  | assign target value => exact hi.assign env he
  | member object computed property span =>
    refine .bind (hi.part env he (Expr.object_mem_parts ..)) fun v hv => ?_
    cases computed with
    | true =>
      exact .bind (hi.part env he (List.mem_cons_of_mem _ List.mem_cons_self)) fun k _ =>
        hi.readIndex env hv k object.path (law.called he rfl)
    | false =>
      exact .bind (propertyName_lawful he) fun name _ =>
        hi.readProperty env hv name (law.called he rfl)
  | call callee args span => exact hi.call env he

/-- A plain expression may be evaluated while a call is waiting, since it makes none itself. -/
theorem plainRule (env : Env) {e : Expr} (he : law.expr e) (h : e.Plain) :
    Lawful law cfg (fun ω _ => Inner.exprRule cfg (inner ω) env e) law.value true := by
  cases h with
  | var name => exact .query (fun _ s => s.regular_lookup env name.text) fun s v hs hv => hs.lookup hv
  | number value span => exact .pure trivial
  | text h => exact template_lawful _ _ fun e hmem => hi.plainPart env he hmem (h e hmem)
  | array h =>
    refine .bind (exprs_lawful fun e hmem => hi.plainPart env he hmem (h e hmem)) fun items hitems =>
      .create fun _ _ => ⟨trivial, .array ?_⟩
    simpa using hitems
  | object h =>
    exact object_lawful _ (fun _ ht => law.given he ht) fun p hp e hmem =>
      hi.plainPart env he (Expr.mem_parts_object hp hmem) (h p hp e hmem)
  | unary h =>
    exact .bind (hi.plainPart env he List.mem_cons_self h) fun v _ =>
      .pure (CodeLaw.value_of_isData (UnaryOp.apply_isData _ v))
  | binary hl hr =>
    exact .bind (hi.plainPart env he List.mem_cons_self hl) fun v _ =>
      .bind (hi.plainPart env he (List.mem_cons_of_mem _ List.mem_cons_self) hr) fun w _ =>
        .pure (CodeLaw.value_of_isData (BinaryOp.apply_isData _ v w))
  | assignVar hv =>
    exact .bind (hi.plainPart env he (List.mem_cons_of_mem _ List.mem_cons_self) hv) fun v hv =>
      .bind (.assign env _ hv) fun _ _ => .pure hv
  | assignField ho hv =>
    have htarget := law.inner he List.mem_cons_self
    exact assignMember_lawful (hi.plainPart env htarget List.mem_cons_self ho)
      (.bind (propertyName_lawful htarget) fun _ _ => .pure trivial)
      (hi.plainPart env he (List.mem_cons_of_mem _ List.mem_cons_self) hv)
  | assignIndex ho hk hv =>
    have htarget := law.inner he List.mem_cons_self
    exact assignMember_lawful (hi.plainPart env htarget List.mem_cons_self ho)
      (hi.plainPart env htarget (List.mem_cons_of_mem _ List.mem_cons_self) hk)
      (hi.plainPart env he (List.mem_cons_of_mem _ List.mem_cons_self) hv)

end LawfulInner

end

end Sable
