import Sable.Proofs.Runs.Expressions

/-!
# Statements run lawfully

`Lawful` for every rule of statements. A loop takes the jumps with its own number (`Flow.FromLoop`).
`lawful_inner`: every expression and statement of lawful code, for every fuel.
-/

namespace Sable

section

variable {law : CodeLaw} {cfg : Config}

/-- What comes out of the parts of a statement and is for none of the loops around them there comes
out of the statement. -/
theorem Flow.From.of_parts {s : Stmt} {body : List Stmt} {loops : List Enclosing} {flow : Flow}
    (h : flow.From law body) (hparts : ∀ t ∈ body, (loops, t) ∈ s.parts [])
    (hne : ∀ loop ∈ loops, flow.target? ≠ some loop.id) : flow.From law [s] := by
  cases flow with
  | normal v | ret v => exact h
  | leave id | skip id =>
    obtain ⟨t, ht, he⟩ := h
    exact ⟨s, List.mem_singleton_self s, he.of_part (hparts t ht) hne⟩

/-! ### Loops -/

/-- How a loop with the given number and body may end. -/
def Flow.FromLoop (law : CodeLaw) (id : Nat) (body : List Stmt) (flow : Flow) : Prop :=
  flow.From law body ∧ flow.target? ≠ some id

theorem Flow.fromLoop_normal {id : Nat} {body : List Stmt} :
    (Flow.normal .nothing).FromLoop law id body :=
  ⟨trivial, by simp [Flow.target?]⟩

/-- A loop runs its body, and lets out what is not for itself. -/
theorem Lawful.of_loop {s : Stmt} {id : Nat} {label : Option String} {body : List Stmt}
    {e : Action Flow} (hparts : ∀ t ∈ body, ([⟨id, label⟩], t) ∈ s.parts [])
    (he : Lawful law cfg e (Flow.FromLoop law id body)) : Lawful law cfg e (Flow.From law [s]) :=
  he.mono fun _ hflow => hflow.1.of_parts hparts (by simpa using hflow.2)

/-- A loop that goes on to `next` after its body. -/
theorem loopStep_lawful {id : Nat} {b : List Stmt} {body next : Action Flow}
    (hbody : Lawful law cfg body (Flow.From law b))
    (hnext : Lawful law cfg next (Flow.FromLoop law id b)) :
    Lawful law cfg (fun ω _ => (do
      match LoopStep.ofFlow id (← body ω) with
      | .again => next ω
      | .stop => return .normal .nothing
      | .escape flow => return flow : Eval ω Flow)) (Flow.FromLoop law id b) := by
  refine .bind hbody fun flow hflow => ?_
  cases hs : LoopStep.ofFlow id flow with
  | again => exact hnext
  | stop => exact .pure Flow.fromLoop_normal
  | escape out =>
    obtain ⟨rfl, hne⟩ := LoopStep.target_ne hs
    exact .pure ⟨hflow, hne⟩

theorem loop_lawful {id : Nat} {b : List Stmt} {test : Action Bool} {body : Action Flow}
    {update : Action Unit} (htest : Lawful law cfg test fun _ => True)
    (hbody : Lawful law cfg body (Flow.From law b)) (hupdate : Lawful law cfg update fun _ => True)
    (fuel : Nat) :
    Lawful law cfg (fun ω _ => Eval.loop id (test ω) (body ω) (update ω) fuel)
      (Flow.FromLoop law id b) := by
  induction fuel with
  | zero => exact .stuck
  | succ fuel ih =>
    refine .bind htest fun holds _ => .ite (fun _ => ?_) fun _ => .pure Flow.fromLoop_normal
    exact loopStep_lawful hbody (.bind hupdate fun _ _ => ih)

theorem forEach_lawful {id : Nat} {b : List Stmt}
    {body : ∀ (ω : Type) [Observer ω], Nat → Value → Eval ω Flow}
    (hbody : ∀ k v, law.value v → Lawful law cfg (fun ω _ => body ω k v) (Flow.From law b)) (k : Nat)
    {items : List Value} (hitems : ∀ v ∈ items, law.value v) :
    Lawful law cfg (fun ω _ => Eval.forEach id (body ω) k items) (Flow.FromLoop law id b) := by
  induction items generalizing k with
  | nil => exact .pure Flow.fromLoop_normal
  | cons item rest ih =>
    refine loopStep_lawful (hbody k item (hitems _ List.mem_cons_self)) (ih (k + 1) fun v hv => ?_)
    exact hitems v (List.mem_cons_of_mem _ hv)

theorem forRange_lawful {id : Nat} {b : List Stmt} (range : Range)
    {body : ∀ (ω : Type) [Observer ω], Nat → Value → Eval ω Flow}
    (hbody : ∀ k v, law.value v → Lawful law cfg (fun ω _ => body ω k v) (Flow.From law b))
    (fuel k : Nat) :
    Lawful law cfg (fun ω _ => Eval.forRange id range (body ω) fuel k) (Flow.FromLoop law id b) := by
  induction fuel generalizing k with
  | zero => exact .stuck
  | succ fuel ih =>
    refine .ite (fun _ => ?_) fun _ => .pure Flow.fromLoop_normal
    have hnumber : law.value (.number (range.nth k)) := trivial
    exact loopStep_lawful (hbody k _ hnumber) (ih (k + 1))

/-! ### Declarations -/

theorem typeDef_lawful (env : Env) {name : Name} {params : List TypeParam} {definition : TypeExpr}
    (h : law.stmt (.typeDecl name params definition)) :
    Lawful law cfg (fun ω _ => (Eval.typeDef env name.text params definition : Eval ω Ty))
      law.type := by
  have hwritten : ∀ t ∈ TypeParam.bounds params ++ definition.annotations, law.written t :=
    fun t ht => law.noted h ht
  cases definition with
  | struct fields span =>
    obtain ⟨hbounds, hfields⟩ := List.forall_mem_append.1 hwritten
    refine .bind (evalTypeParams_lawful hbounds) fun x hx =>
      .bind (newScope_lawful env) fun inside _ => ?_
    have hmembers : Lawful law cfg (fun ω _ => (Eval.resolve (fields.map (·.type)) fun store =>
        store.evalFields inside x.2 fields : Eval ω (List Member)))
        fun members => ∀ m ∈ members, law.held m.type := by
      refine .resolve hfields (fun hproper s => ?_) fun _ _ hs => hs.evalFields hx.2 hfields
      exact s.regular_evalFields fun f hf => hproper f.type (List.mem_map_of_mem hf)
    exact .bind (.declareType _ _ (law.struct hx.1 (by simp))) fun _ _ =>
      .bind hmembers fun _ hm => .pure (law.struct hx.1 hm)
  | _ =>
    unfold Eval.typeDef
    exact .resolve hwritten (fun hproper s => s.regular_evalTypeDef hproper) fun s t hs =>
      law.defined h (fun _ _ _ => hs.type?) (by simp)

/-- What is given for a member of a contract is a function under the law. -/
theorem written_givenAnnotations {methods : List Function} {getters : List Getter}
    (hm : ∀ f ∈ methods, law.function f) (hg : ∀ g ∈ getters, law.function g.toFunction)
    (member : String) : ∀ t ∈ Store.givenAnnotations methods getters member, law.written t := by
  unfold Store.givenAnnotations
  split
  · rename_i f hf
    exact fun t ht => law.signed (hm f (List.mem_of_find?_eq_some hf)) ht
  · intro t ht
    obtain ⟨g, hfind, rfl⟩ := Option.map_eq_some_iff.1 (Option.mem_toList.1 ht)
    exact law.signed (hg g (List.mem_of_find?_eq_some hfind)) (List.mem_singleton_self _)

theorem fulfill_lawful (env : Env) (contract target : String) {methods : List Function}
    {getters : List Getter} (hm : ∀ f ∈ methods, law.function f)
    (hg : ∀ g ∈ getters, law.function g.toFunction) :
    Lawful law cfg (fun ω _ => (Eval.fulfill env contract target methods getters : Eval ω Unit))
      (fun _ => True) := by
  refine .bind (.check fun _ s => s.regular_contractMembers env contract) fun members _ =>
    .bind (.check fun _ s => s.regular_structTag env target) fun tag _ => ?_
  refine .bind (.forM fun member _ => .resolve (written_givenAnnotations hm hg member.name)
    (fun hproper s => s.regular_checkMember contract target hproper) fun _ _ _ _ => trivial) fun _ _ => ?_
  refine .bind (.forM fun f hf => .change fun _ => .method (hm f hf)) fun _ _ => ?_
  exact .bind (.forM fun g hmem => .change fun _ => .getter (hg g hmem)) fun _ _ =>
    .change fun _ => .fulfillment

theorem items_lawful (v : Value) :
    Lawful law cfg (fun ω _ => (Inner.items v : Eval ω (List Value)))
      fun vs => ∀ v ∈ vs, law.value v := by
  have hnone : Lawful law cfg (fun ω _ => (Eval.query fun store =>
      .error (.notIterable (store.typeOf v)) : Eval ω (List Value)))
      fun vs => ∀ v ∈ vs, law.value v :=
    .query (fun _ _ => .error rfl) fun _ _ _ h => by cases h
  cases v with
  | array a =>
    have hask : Lawful law cfg (fun ω _ => (Eval.ask fun store => (store.array a).toList : Eval ω _))
        fun vs => ∀ v ∈ vs, law.value v :=
      .ask fun s hs v hv => hs.array a v (Array.mem_toList_iff.1 hv)
    exact hask
  | text s =>
    refine .pure fun v hv => ?_
    obtain ⟨c, -, rfl⟩ := List.mem_map.1 hv
    trivial
  | _ => exact hnone

namespace LawfulInner

variable {inner : ∀ (ω : Type) [Observer ω], Inner ω} (hi : LawfulInner law cfg inner)

include hi

theorem test (env : Env) {condition : Expr} (h : law.expr condition) :
    Lawful law cfg (fun ω _ => (inner ω).test env condition) fun _ => True :=
  .bind (hi.expr env condition h) fun _ _ => .pure trivial

theorem iterate (env : Env) (index : Option Name) (value : Name) {body : List Stmt}
    (hbody : ∀ s ∈ body, law.stmt s) (k : Nat) (item : Value) (hitem : law.value item) :
    Lawful law cfg (fun ω _ => (inner ω).iterate env index value body k item)
      (Flow.From law body) := by
  refine .bind (newScope_lawful env) fun scope _ => ?_
  have hrest : Lawful law cfg (fun ω _ => (do
      Eval.declare scope value.text item .final none
      (inner ω).body scope body : Eval ω Flow)) (Flow.From law body) :=
    .bind (.declare _ _ _ _ hitem) fun _ _ => hi.body scope hbody
  cases index with
  | none => exact hrest
  | some index =>
    have hindex : law.value (.number (Float.ofNat k)) := trivial
    exact .bind (.declare _ _ _ _ hindex) fun _ _ => hrest

theorem whileLoop (fuel : Nat) (env : Env) (id : Nat) {condition : Expr} {body : List Stmt}
    (hcondition : law.expr condition) (hbody : ∀ s ∈ body, law.stmt s) :
    Lawful law cfg (fun ω _ => (inner ω).whileLoop fuel env id condition body)
      (Flow.FromLoop law id body) :=
  .inLoop _ (loop_lawful (hi.test env hcondition) (hi.block env hbody) (.pure trivial) fuel)

theorem forLoop (fuel : Nat) (env : Env) (id : Nat) {init : Option Stmt}
    {condition update : Option Expr} {body : List Stmt} (hinit : ∀ s ∈ init, law.stmt s)
    (hcondition : ∀ e ∈ condition, law.expr e) (hupdate : ∀ e ∈ update, law.expr e)
    (hbody : ∀ s ∈ body, law.stmt s) :
    Lawful law cfg (fun ω _ => (inner ω).forLoop fuel env id init condition update body)
      (Flow.FromLoop law id body) := by
  refine .bind (newScope_lawful env) fun scope _ => ?_
  have htest : Lawful law cfg (fun ω _ => (inner ω).test? scope condition) fun _ => True := by
    cases condition with
    | some e => exact hi.test scope (hcondition e rfl)
    | none => exact .pure trivial
  have hstep : Lawful law cfg (fun ω _ => (inner ω).update? scope update) fun _ => True := by
    cases update with
    | some e => exact .bind (hi.expr scope e (hupdate e rfl)) fun _ _ => .pure trivial
    | none => exact .pure trivial
  cases init with
  | none => exact .inLoop _ (loop_lawful htest (hi.block scope hbody) hstep fuel)
  | some init =>
    exact .bind (hi.stmt scope init (hinit _ rfl)) fun _ _ =>
      .inLoop _ (loop_lawful htest (hi.block scope hbody) hstep fuel)

theorem forIn (env : Env) (id : Nat) (index : Option Name) (value : Name) {iterable : Expr}
    {body : List Stmt} (hiterable : law.expr iterable) (hbody : ∀ s ∈ body, law.stmt s) :
    Lawful law cfg (fun ω _ => (inner ω).forIn env id index value iterable body)
      (Flow.FromLoop law id body) :=
  .bind (hi.expr env iterable hiterable) fun v _ => .bind (items_lawful v) fun _ hitems =>
    .inLoop _ (forEach_lawful (hi.iterate env index value hbody) 0 hitems)

theorem number (env : Env) (role : String) {e : Expr} (he : law.expr e) :
    Lawful law cfg (fun ω _ => (inner ω).number env role e) fun _ => True := by
  refine .bind (hi.expr env e he) fun v _ => ?_
  cases v with
  | number x => exact .pure trivial
  | _ => exact .check fun _ _ => .error rfl

theorem range (env : Env) {r : RangeExpr} (hstart : law.expr r.start) (hstop : law.expr r.stop)
    (hstep : ∀ e ∈ r.step, law.expr e) :
    Lawful law cfg (fun ω _ => (inner ω).range env r) fun _ => True := by
  refine .bind (hi.number env _ hstart) fun start _ =>
    .bind (hi.number env _ hstop) fun stop _ => ?_
  obtain ⟨_, _, inclusive, step⟩ := r
  have hmake (x : Float) : Lawful law cfg (fun ω _ => (if x == 0 then Eval.raise .zeroStep
      else return ⟨start, stop, x, inclusive⟩ : Eval ω Range)) fun _ => True :=
    .ite (fun _ => .raise fun _ => rfl) fun _ => .pure trivial
  cases step with
  | none => exact hmake 1
  | some e => exact .bind (hi.number env _ (hstep e rfl)) fun x _ => hmake x

theorem forRange (fuel : Nat) (env : Env) (id : Nat) (index : Option Name) (value : Name)
    {r : RangeExpr} {body : List Stmt} (hstart : law.expr r.start) (hstop : law.expr r.stop)
    (hstep : ∀ e ∈ r.step, law.expr e) (hbody : ∀ s ∈ body, law.stmt s) :
    Lawful law cfg (fun ω _ => (inner ω).forRange fuel env id index value r body)
      (Flow.FromLoop law id body) :=
  .bind (hi.range env hstart hstop hstep) fun range _ =>
    .inLoop _ (forRange_lawful range (hi.iterate env index value hbody) fuel 0)

/-! ### Every form -/

theorem varDecl (env : Env) {decl : VarDecl} (hd : ∀ t ∈ decl.type.toList, law.written t)
    (h : ∀ e ∈ decl.value, law.expr e) :
    Lawful law cfg (fun ω _ => (inner ω).varDecl env decl) law.value := by
  obtain ⟨modifier, name, type, value⟩ := decl
  have hdeclare {v : Value} (hv : law.value v) : Lawful law cfg (fun ω _ => (do
      let type ← Eval.resolve type.toList fun store => store.evalResult env [] type
      Eval.declare env name.text v modifier type
      return v : Eval ω Value)) law.value :=
    .bind (evalResult_lawful (List.forall_mem_nil _) hd) fun _ ht =>
      .bind (.declare _ _ _ _ hv ht) fun _ _ => .pure hv
  cases value with
  | none =>
    have hnull : law.value .null := trivial
    exact hdeclare hnull
  | some e => exact .bind (hi.expr env e (h e rfl)) fun v hv => hdeclare hv

theorem varDecls (env : Env) {last : Value} (hlast : law.value last) {decls : List VarDecl}
    (hd : ∀ decl ∈ decls, ∀ t ∈ decl.type.toList, law.written t)
    (h : ∀ decl ∈ decls, ∀ e ∈ decl.value, law.expr e) :
    Lawful law cfg (fun ω _ => (inner ω).varDecls env last decls) law.value := by
  induction decls generalizing last with
  | nil => exact .pure hlast
  | cons decl rest ih =>
    exact .bind (hi.varDecl env (hd decl List.mem_cons_self) (h decl List.mem_cons_self)) fun v hv =>
      ih hv (fun other hother => hd other (List.mem_cons_of_mem _ hother))
        fun other hother => h other (List.mem_cons_of_mem _ hother)

theorem ifElse (env : Env) {otherwise : Option (List Stmt)} {branches : List (Expr × List Stmt)}
    (hconditions : ∀ branch ∈ branches, law.expr branch.1)
    (h : ∀ s ∈ (branches.map (·.2)).flatten ++ otherwise.getD [], law.stmt s) :
    Lawful law cfg (fun ω _ => (inner ω).ifElse env otherwise branches)
      (Flow.From law ((branches.map (·.2)).flatten ++ otherwise.getD [])) := by
  induction branches with
  | nil =>
    cases otherwise with
    | some body => exact hi.block env h
    | none => exact .pure trivial
  | cons branch rest ih =>
    obtain ⟨condition, body⟩ := branch
    simp only [List.map_cons, List.flatten_cons, List.append_assoc] at h ⊢
    have hcondition : law.expr condition := hconditions _ List.mem_cons_self
    refine .bind (hi.test env hcondition) fun holds _ => .ite (fun _ => ?_) fun _ => ?_
    · refine (hi.block env fun s hs => h s (List.mem_append_left _ hs)).mono fun flow hf => ?_
      exact hf.subset (List.subset_append_left _ _)
    · have hrest := ih (fun b hb => hconditions b (List.mem_cons_of_mem _ hb))
        fun s hs => h s (List.mem_append_right _ hs)
      refine hrest.mono fun flow hf => ?_
      exact hf.subset (List.subset_append_right _ _)

theorem stmtRule (fuel : Nat) (env : Env) {s : Stmt} (hs : law.stmt s) :
    Lawful law cfg (fun ω _ => (inner ω).stmtRule fuel env s) (Flow.From law [s]) := by
  -- every form is covered by a rule of its own, once its parts are known to be under the law
  have hin {loops : List Enclosing} {body : List Stmt} (h : ∀ t ∈ body, (loops, t) ∈ s.parts []) :
      ∀ t ∈ body, law.stmt t := fun t ht => law.part hs (h t ht)
  have hused {e : Expr} (h : e ∈ s.exprs) : law.expr e := law.used hs h
  cases s with
  | varDecl decl =>
    exact .bind (hi.varDecl env (fun _ ht => law.noted hs ht) fun _ he =>
      hused (Option.mem_toList.2 he)) fun v hv => .pure hv
  | varDecls decls =>
    have hnothing : law.value .nothing := trivial
    have hvalues : ∀ decl ∈ decls, ∀ e ∈ decl.value, law.expr e := fun decl hd _ he =>
      hused (List.mem_filterMap.2 ⟨decl, hd, he⟩)
    have htypes : ∀ decl ∈ decls, ∀ t ∈ decl.type.toList, law.written t := fun decl hd t ht =>
      law.noted hs (List.mem_filterMap.2 ⟨decl, hd, Option.mem_toList.1 ht⟩)
    exact .bind (hi.varDecls env hnothing htypes hvalues) fun v hv => .pure hv
  | function f =>
    have hf : law.value (.function ⟨f, env⟩) := law.declared hs (List.mem_singleton_self f)
    exact .bind (.declare _ _ _ _ hf) fun _ _ => .pure hf
  | ret value span =>
    cases value with
    | none => exact .pure trivial
    | some e => exact .bind (hi.expr env e (hused List.mem_cons_self)) fun v hv => .pure hv
  | ifElse branches otherwise =>
    have hparts : ∀ t ∈ (branches.map (·.2)).flatten ++ otherwise.getD [],
        ([], t) ∈ (Stmt.ifElse branches otherwise).parts [] := fun t ht => List.mem_map_of_mem ht
    have hconditions : ∀ branch ∈ branches, law.expr branch.1 := fun _ hb =>
      hused (List.mem_map_of_mem hb)
    exact (hi.ifElse env hconditions (hin hparts)).mono fun flow hflow => hflow.of_parts hparts (by simp)
  | whileLoop id condition body =>
    have hparts : ∀ t ∈ body, ([⟨id, none⟩], t) ∈ (Stmt.whileLoop id condition body).parts [] :=
      fun t ht => List.mem_map_of_mem ht
    exact .of_loop hparts (hi.whileLoop fuel env id (hused List.mem_cons_self) (hin hparts))
  | forLoop id label init condition update body =>
    have hparts : ∀ t ∈ body, ([⟨id, label.map (·.text)⟩], t) ∈
        (Stmt.forLoop id label init condition update body).parts [] :=
      fun t ht => List.mem_append_right _ (List.mem_map_of_mem ht)
    have hinit : ∀ t ∈ init, law.stmt t := fun t ht =>
      law.part hs (List.mem_append_left _ (List.mem_map_of_mem (Option.mem_toList.2 ht)))
    have hcondition : ∀ e ∈ condition, law.expr e := fun _ he =>
      hused (List.mem_append_left _ (Option.mem_toList.2 he))
    have hupdate : ∀ e ∈ update, law.expr e := fun _ he =>
      hused (List.mem_append_right _ (Option.mem_toList.2 he))
    exact .of_loop hparts (hi.forLoop fuel env id hinit hcondition hupdate (hin hparts))
  | forIn id label index value iterable body =>
    have hparts : ∀ t ∈ body, ([⟨id, label.map (·.text)⟩], t) ∈
        (Stmt.forIn id label index value iterable body).parts [] := fun t ht => List.mem_map_of_mem ht
    exact .of_loop hparts (hi.forIn env id index value (hused List.mem_cons_self) (hin hparts))
  | forRange id label index value range body =>
    have hparts : ∀ t ∈ body, ([⟨id, label.map (·.text)⟩], t) ∈
        (Stmt.forRange id label index value range body).parts [] := fun t ht => List.mem_map_of_mem ht
    have hstart : law.expr range.start := hused List.mem_cons_self
    have hstop : law.expr range.stop := hused (List.mem_cons_of_mem _ List.mem_cons_self)
    have hstep : ∀ e ∈ range.step, law.expr e := fun _ he =>
      hused (List.mem_cons_of_mem _ (List.mem_cons_of_mem _ (Option.mem_toList.2 he)))
    exact .of_loop hparts (hi.forRange fuel env id index value hstart hstop hstep (hin hparts))
  | leave id label span | skip id label span =>
    exact .pure ⟨_, List.mem_singleton_self _, .of_flow rfl⟩
  | typeDecl name params definition =>
    exact .bind (typeDef_lawful env hs) fun type ht =>
      .bind (.declareType _ _ ht) fun _ _ => .pure ht
  | fulfill contract target methods getters =>
    refine .bind (fulfill_lawful env _ _ (fun f hf => ?_) fun g hg => ?_) fun _ _ => .pure trivial
    · exact law.declared hs (List.mem_append_left _ hf)
    · exact law.declared hs (List.mem_append_right _ (List.mem_map_of_mem hg))
  | expr e => exact .bind (hi.expr env e (hused List.mem_cons_self)) fun v hv => .pure hv

end LawfulInner

end

/-- The evaluators for a given fuel. -/
def Eval.inner (cfg : Config) (fuel : Nat) (ω : Type) [Observer ω] : Inner ω :=
  ⟨Eval.expr cfg fuel, Eval.stmt cfg fuel⟩

theorem lawful_inner (law : CodeLaw) (cfg : Config) (fuel : Nat) :
    LawfulInner law cfg (fun ω _ => Eval.inner cfg fuel ω) := by
  induction fuel with
  | zero => exact ⟨fun _ _ _ => .stuck, fun _ _ _ _ => .stuck, fun _ _ _ => .stuck⟩
  | succ fuel ih =>
    exact ⟨fun env _ he => ih.exprRule env he, fun env _ he hp => ih.plainRule env he hp,
      fun env _ hs => ih.stmtRule fuel env hs⟩

end Sable
