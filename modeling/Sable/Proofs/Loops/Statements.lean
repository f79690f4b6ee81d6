import Sable.Proofs.Loops.Expressions
import Sable.Proofs.Runs.Sessions

/-!
# Statements with an idle scope

`Pairs` for every rule of statements, which declare names and so need `Env.Twin`. `paired_inner` and
`program_pairs`: all expressions, statements and programs.
-/

namespace Sable

variable {ω ω' : Type} {n k : Nat}

/-! ### Loops -/

section

variable {body next : Eval ω Flow} {body' next' : Eval ω' Flow}

/-- A loop that goes on to `next` after its body. -/
theorem loopStep_pairs (id : Nat) (hbody : Pairs n k (Flow.Twin n) body body')
    (hnext : ∀ j, k ≤ j → Pairs n j (Flow.Twin n) next next') :
    Pairs n k (Flow.Twin n)
      (do
        match LoopStep.ofFlow id (← body) with
        | .again => next
        | .stop => return .normal .nothing
        | .escape flow => return flow : Eval ω Flow)
      (do
        match LoopStep.ofFlow id (← body') with
        | .again => next'
        | .stop => return .normal .nothing
        | .escape flow => return flow : Eval ω' Flow) := by
  have hnothing {j : Nat} : Pairs n j (Flow.Twin n) (pure (.normal .nothing) : Eval ω Flow)
      (pure (.normal .nothing) : Eval ω' Flow) := .pure fun _ _ => .normal .nothing
  refine .bind hbody fun j hj flow flow' hflow => ?_
  cases hflow with
  | normal _ => exact hnext j hj
  | ret hv => exact .pure fun _ hi => .ret (hv.mono hi)
  | leave target =>
    by_cases htarget : target = id
    · simpa only [LoopStep.ofFlow, if_pos htarget] using hnothing
    · simpa only [LoopStep.ofFlow, if_neg htarget] using .pure fun _ _ => .leave target
  | skip target =>
    by_cases htarget : target = id
    · simpa only [LoopStep.ofFlow, if_pos htarget] using hnext j hj
    · simpa only [LoopStep.ofFlow, if_neg htarget] using .pure fun _ _ => .skip target

theorem loop_pairs (id : Nat) {test : Eval ω Bool} {test' : Eval ω' Bool} {update : Eval ω Unit}
    {update' : Eval ω' Unit} (htest : Pairs n k Agree test test')
    (hbody : Pairs n k (Flow.Twin n) body body') (hupdate : Pairs n k Agree update update') (fuel : Nat) :
    Pairs n k (Flow.Twin n) (Eval.loop id test body update fuel)
      (Eval.loop id test' body' update' fuel) := by
  induction fuel with
  | zero => exact .stuck
  | succ fuel ih =>
    refine .bind_same htest fun holds => .ite (fun _ => ?_) fun _ => .pure fun _ _ => .normal .nothing
    refine loopStep_pairs id hbody fun j hj => ?_
    exact .bind_same (hupdate.mono hj) fun _ => ih.mono hj

end

section

variable {body : Nat → Value → Eval ω Flow} {body' : Nat → Value → Eval ω' Flow}

theorem forEach_pairs (id : Nat) (hbody : ∀ i j v v', k ≤ j → Value.Twin n j v v' →
      Pairs n j (Flow.Twin n) (body i v) (body' i v')) (i : Nat) {items items' : List Value} {j : Nat}
    (hj : k ≤ j) (hitems : Value.Twins n j items items') :
    Pairs n j (Flow.Twin n) (Eval.forEach id body i items) (Eval.forEach id body' i items') := by
  induction items generalizing i j items' with
  | nil =>
    cases hitems
    exact .pure fun _ _ => .normal .nothing
  | cons item rest ih =>
    cases hitems with
    | @cons _ item' _ rest' hitem hrest =>
      have hrest : Value.Twins n j rest rest' := hrest
      refine loopStep_pairs id (hbody i j item item' hj hitem) fun l hjl => ?_
      exact ih (i + 1) (Nat.le_trans hj hjl) (hrest.mono hjl)

theorem forRange_pairs (id : Nat) (range : Range) (hbody : ∀ i j v v', k ≤ j → Value.Twin n j v v' →
      Pairs n j (Flow.Twin n) (body i v) (body' i v')) (fuel i : Nat) :
    Pairs n k (Flow.Twin n) (Eval.forRange id range body fuel i)
      (Eval.forRange id range body' fuel i) := by
  induction fuel generalizing i with
  | zero => exact .stuck
  | succ fuel ih =>
    refine .ite (fun _ => ?_) fun _ => .pure fun _ _ => .normal .nothing
    refine loopStep_pairs id (hbody i k _ _ (Nat.le_refl k) (.same fun _ => nofun)) fun j hj => ?_
    exact (ih (i + 1)).mono hj

end

theorem forM_pairs {α : Type} {f : α → Eval ω Unit} {f' : α → Eval ω' Unit} {xs : List α}
    (h : ∀ x ∈ xs, Pairs n k Agree (f x) (f' x)) : Pairs n k Agree (xs.forM f) (xs.forM f') := by
  induction xs with
  | nil => exact .same ()
  | cons x xs ih =>
    obtain ⟨hx, hxs⟩ := List.forall_mem_cons.1 h
    exact .bind_same hx fun _ => ih hxs

namespace PairedInner

variable {inner : Inner ω} {inner' : Inner ω'} {env env' : Env} (hi : PairedInner n inner inner')

include hi

theorem test (he : env.Sees n k env') (condition : Expr) :
    Pairs n k Agree (inner.test env condition) (inner'.test env' condition) := by
  refine .bind (hi.expr he condition) fun j hj v v' hv => ?_
  rw [hv.truthy_eq]
  exact .same _

theorem test? (he : env.Sees n k env') (condition : Option Expr) :
    Pairs n k Agree (inner.test? env condition) (inner'.test? env' condition) := by
  cases condition with
  | some e => exact hi.test he e
  | none => exact .same _

theorem update? (he : env.Sees n k env') (update : Option Expr) :
    Pairs n k Agree (inner.update? env update) (inner'.update? env' update) := by
  cases update with
  | some e => exact .bind (hi.expr he e) fun _ _ _ _ _ => .same ()
  | none => exact .same ()

end PairedInner

variable [Observer ω] [Observer ω']

/-! ### Declarations -/

section

variable {env env' : Env}

theorem typeDef_pairs (he : env.Sees n k env') (name : String) (params : List TypeParam) (d : TypeExpr) :
    Pairs n k Agree (Eval.typeDef env name params d : Eval ω Ty)
      (Eval.typeDef env' name params d : Eval ω' Ty) := by
  cases d with
  | struct fields span =>
    refine .bind_same (.resolve _ fun s s' hs => hs.evalTypeParams_eq he _ _) fun x => ?_
    obtain ⟨bounds, subst⟩ := x
    refine .bind (.newScope he) fun j hj inside inside' hinside => ?_
    refine .bind_same (.declareType hinside name _) fun _ => ?_
    exact .bind_same (.resolve _ fun s s' hs => hs.evalFields_eq hinside.sees _ _) fun _ => .same _
  | _ =>
    unfold Eval.typeDef
    exact .resolve _ fun s s' hs => hs.evalTypeDef_eq he name params nofun

theorem fulfill_pairs (he : env.Twin n k env') (contract target : String) (methods : List Function)
    (getters : List Getter) :
    Pairs n k Agree (Eval.fulfill env contract target methods getters : Eval ω Unit)
      (Eval.fulfill env' contract target methods getters : Eval ω' Unit) := by
  refine .bind_same (.check fun s s' hs => hs.contractMembers_eq he.sees contract) fun members => ?_
  refine .bind_same (.check fun s s' hs => hs.structTag_eq he.sees target) fun tag => ?_
  refine .bind_same (forM_pairs fun member _ => .resolve _ fun s s' hs =>
    hs.checkMember_eq he.sees contract target methods getters member) fun _ => ?_
  refine .bind_same (forM_pairs fun f _ => .change fun s s' hs hsize => ?_) fun _ => ?_
  · exact ⟨Store.size_modifyScope _ _,
      hs.addMethod he.here tag f.name.text (.function (he.sees.mono hsize))⟩
  refine .bind_same (forM_pairs fun g _ => .change fun s s' hs hsize => ?_) fun _ => ?_
  · exact ⟨Store.size_modifyScope _ _,
      hs.addGetter he.here tag g.name.text (.function (he.sees.mono hsize))⟩
  exact .change fun s s' hs _ => ⟨Store.size_modifyScope _ _, hs.addFulfillment he.here tag contract⟩

theorem items_pairs {v v' : Value} (hv : v.Twin n k v') :
    Pairs n k (Value.Twins n) (Inner.items v : Eval ω (List Value))
      (Inner.items v' : Eval ω' (List Value)) := by
  have hnone : Pairs n k (Value.Twins n)
      (Eval.query fun store => .error (.notIterable (store.typeOf v)) : Eval ω (List Value))
      (Eval.query fun store => .error (.notIterable (store.typeOf v')) : Eval ω' (List Value)) := by
    refine .query fun s s' hs _ => ?_
    rw [hs.typeOf_eq hv]
    exact .error _
  cases hv with
  | function _ => exact hnone
  | same _ =>
    cases v with
    | array a =>
      have hask : Pairs n k (Value.Twins n) (Eval.ask fun store => (store.array a).toList : Eval ω _)
          (Eval.ask fun store => (store.array a).toList : Eval ω' _) := .ask fun s s' hs _ => hs.array a
      exact hask
    | text s =>
      refine .pure fun j _ => List.forall₂_same.2 fun v hv => ?_
      obtain ⟨c, -, rfl⟩ := List.mem_map.1 hv
      exact .same fun _ => nofun
    | _ => exact hnone

end

namespace PairedInner

variable {inner : Inner ω} {inner' : Inner ω'} {env env' : Env} (hi : PairedInner n inner inner')

include hi

theorem iterate (he : env.Sees n k env') (index : Option Name) (value : Name) (body : List Stmt) (i : Nat)
    {item item' : Value} (hitem : item.Twin n k item') :
    Pairs n k (Flow.Twin n) (inner.iterate env index value body i item)
      (inner'.iterate env' index value body i item') := by
  refine .bind (.newScope he) fun j hj scope scope' hscope => ?_
  have hrest : Pairs n j (Flow.Twin n)
      (do
        Eval.declare scope value.text item .final none
        inner.body scope body : Eval ω Flow)
      (do
        Eval.declare scope' value.text item' .final none
        inner'.body scope' body : Eval ω' Flow) :=
    .bind_same (.declare hscope value.text (hitem.mono hj) _ none) fun _ => hi.body hscope body
  cases index with
  | none => exact hrest
  | some index =>
    have hindex : (Value.number (Float.ofNat i)).Twin n j (.number (Float.ofNat i)) := .same fun _ => nofun
    exact .bind_same (.declare hscope index.text hindex _ none) fun _ => hrest

theorem whileLoop (he : env.Sees n k env') (fuel id : Nat) (condition : Expr) (body : List Stmt) :
    Pairs n k (Flow.Twin n) (inner.whileLoop fuel env id condition body)
      (inner'.whileLoop fuel env' id condition body) :=
  .inLoop _ (loop_pairs id (hi.test he condition) (hi.block he body) (.same ()) fuel)
    fun _ _ _ _ hij h => h.mono hij

theorem forLoop (he : env.Sees n k env') (fuel id : Nat) (init : Option Stmt)
    (condition update : Option Expr) (body : List Stmt) :
    Pairs n k (Flow.Twin n) (inner.forLoop fuel env id init condition update body)
      (inner'.forLoop fuel env' id init condition update body) := by
  have hloop {j : Nat} {scope scope' : Env} (hscope : scope.Sees n j scope') :
      Pairs n j (Flow.Twin n)
        (Eval.inLoop (loopName id) (Eval.loop id (inner.test? scope condition)
          (inner.block scope body) (inner.update? scope update) fuel))
        (Eval.inLoop (loopName id) (Eval.loop id (inner'.test? scope' condition)
          (inner'.block scope' body) (inner'.update? scope' update) fuel)) :=
    .inLoop _ (loop_pairs id (hi.test? hscope condition) (hi.block hscope body)
      (hi.update? hscope update) fuel) fun _ _ _ _ hij h => h.mono hij
  refine .bind (.newScope he) fun j hj scope scope' hscope => ?_
  cases init with
  | none => exact hloop hscope.sees
  | some init => exact .bind (hi.stmt hscope init) fun i hji _ _ _ => hloop (hscope.sees.mono hji)

theorem forIn (he : env.Sees n k env') (id : Nat) (index : Option Name) (value : Name) (iterable : Expr)
    (body : List Stmt) :
    Pairs n k (Flow.Twin n) (inner.forIn env id index value iterable body)
      (inner'.forIn env' id index value iterable body) := by
  refine .bind (hi.expr he iterable) fun j hj v v' hv => ?_
  refine .bind (items_pairs hv) fun i hji items items' hitems => ?_
  refine .inLoop _ (forEach_pairs id (fun l i' v v' hil hv => ?_) 0 (Nat.le_refl i) hitems)
    fun _ _ _ _ hij h => h.mono hij
  exact hi.iterate (he.mono (Nat.le_trans hj (Nat.le_trans hji hil))) index value body l hv

theorem number (he : env.Sees n k env') (role : String) (e : Expr) :
    Pairs n k Agree (inner.number env role e) (inner'.number env' role e) := by
  refine .bind (hi.expr he e) fun j hj v v' hv => ?_
  have hother : Pairs n j Agree
      (Eval.query fun store => .error (.notANumber role (store.typeOf v)) : Eval ω Float)
      (Eval.query fun store => .error (.notANumber role (store.typeOf v')) : Eval ω' Float) :=
    .check fun s s' hs => by rw [hs.typeOf_eq hv]
  cases hv with
  | function _ => exact hother
  | same _ =>
    cases v with
    | number x => exact .same x
    | _ => exact hother

theorem range (he : env.Sees n k env') (r : RangeExpr) :
    Pairs n k Agree (inner.range env r) (inner'.range env' r) := by
  refine .bind_same (hi.number he _ r.start) fun start => .bind_same (hi.number he _ r.stop) fun stop => ?_
  have hmake (x : Float) : Pairs n k Agree
      (if x == 0 then Eval.raise .zeroStep else return ⟨start, stop, x, r.inclusive⟩ : Eval ω Range)
      (if x == 0 then Eval.raise .zeroStep else return ⟨start, stop, x, r.inclusive⟩ : Eval ω' Range) :=
    .ite (fun _ => .raise _) fun _ => .same _
  cases r.step with
  | none => exact hmake 1
  | some e => exact .bind_same (hi.number he _ e) hmake

theorem forRange (he : env.Sees n k env') (fuel id : Nat) (index : Option Name) (value : Name)
    (r : RangeExpr) (body : List Stmt) :
    Pairs n k (Flow.Twin n) (inner.forRange fuel env id index value r body)
      (inner'.forRange fuel env' id index value r body) := by
  refine .bind_same (hi.range he r) fun range => ?_
  refine .inLoop _ (forRange_pairs id range (fun i j v v' hj hv => ?_) fuel 0)
    fun _ _ _ _ hij h => h.mono hij
  exact hi.iterate (he.mono hj) index value body i hv

/-! ### Every form -/

theorem varDecl (he : env.Twin n k env') (decl : VarDecl) :
    Pairs n k (Value.Twin n) (inner.varDecl env decl) (inner'.varDecl env' decl) := by
  obtain ⟨modifier, name, type, value⟩ := decl
  have hdeclare {j : Nat} (hj : k ≤ j) {v v' : Value} (hv : v.Twin n j v') : Pairs n j (Value.Twin n)
      (do
        let type ← Eval.resolve type.toList fun store => store.evalResult env [] type
        Eval.declare env name.text v modifier type
        return v : Eval ω Value)
      (do
        let type ← Eval.resolve type.toList fun store => store.evalResult env' [] type
        Eval.declare env' name.text v' modifier type
        return v' : Eval ω' Value) := by
    have henv := he.mono hj
    refine .bind_same (.resolve _ fun s s' hs => hs.evalResult_eq henv.sees _ _) fun type => ?_
    exact .bind_same (.declare henv name.text hv modifier type) fun _ => .value hv
  cases value with
  | none => exact hdeclare (Nat.le_refl k) .null
  | some e => exact .bind (hi.expr he.sees e) fun j hj v v' hv => hdeclare hj hv

theorem varDecls (he : env.Twin n k env') {last last' : Value} (hlast : last.Twin n k last')
    (decls : List VarDecl) :
    Pairs n k (Value.Twin n) (inner.varDecls env last decls) (inner'.varDecls env' last' decls) := by
  induction decls generalizing k last last' with
  | nil => exact .value hlast
  | cons decl rest ih => exact .bind (hi.varDecl he decl) fun j hj v v' hv => ih (he.mono hj) hv

theorem ifElse (he : env.Sees n k env') (otherwise : Option (List Stmt))
    (branches : List (Expr × List Stmt)) :
    Pairs n k (Flow.Twin n) (inner.ifElse env otherwise branches)
      (inner'.ifElse env' otherwise branches) := by
  induction branches with
  | nil =>
    cases otherwise with
    | some body => exact hi.block he body
    | none => exact .pure fun _ _ => .normal .nothing
  | cons branch rest ih =>
    obtain ⟨condition, body⟩ := branch
    exact .bind_same (hi.test he condition) fun holds =>
      .ite (fun _ => hi.block he body) fun _ => ih

theorem stmtRule (fuel : Nat) (he : env.Twin n k env') (s : Stmt) :
    Pairs n k (Flow.Twin n) (inner.stmtRule fuel env s) (inner'.stmtRule fuel env' s) := by
  have hnormal {j : Nat} {v v' : Value} (hv : v.Twin n j v') : Pairs n j (Flow.Twin n)
      (pure (.normal v) : Eval ω Flow) (pure (.normal v') : Eval ω' Flow) :=
    .pure fun _ hi => .normal (hv.mono hi)
  cases s with
  | varDecl decl => exact .bind (hi.varDecl he decl) fun j hj v v' hv => hnormal hv
  | varDecls decls => exact .bind (hi.varDecls he .nothing decls) fun j hj v v' hv => hnormal hv
  | function f =>
    have hf : (Value.function ⟨f, env⟩).Twin n k (.function ⟨f, env'⟩) := .function he.sees
    exact .bind_same (.declare he f.name.text hf _ none) fun _ => hnormal hf
  | ret value span =>
    cases value with
    | none => exact .pure fun _ _ => .ret .null
    | some e =>
      exact .bind (hi.expr he.sees e) fun j hj v v' hv => .pure fun _ hi => .ret (hv.mono hi)
  | ifElse branches otherwise => exact hi.ifElse he.sees otherwise branches
  | whileLoop id condition body => exact hi.whileLoop he.sees fuel id condition body
  | forLoop id label init condition update body =>
    exact hi.forLoop he.sees fuel id init condition update body
  | forIn id label index value iterable body => exact hi.forIn he.sees id index value iterable body
  | forRange id label index value range body =>
    exact hi.forRange he.sees fuel id index value range body
  | leave id label span => exact .pure fun _ _ => .leave id
  | skip id label span => exact .pure fun _ _ => .skip id
  | typeDecl name params definition =>
    refine .bind_same (typeDef_pairs he.sees name.text params definition) fun type => ?_
    exact .bind_same (.declareType he name.text type) fun _ => hnormal (.same fun _ => nofun)
  | fulfill contract target methods getters =>
    exact .bind_same (fulfill_pairs he _ _ methods getters) fun _ => hnormal .nothing
  | expr e => exact .bind (hi.expr he.sees e) fun j hj v v' hv => hnormal hv

end PairedInner

/-- Expressions and statements are paired with themselves in a store with an idle scope more. -/
theorem paired_inner (n : Nat) (cfg : Config) (fuel : Nat) :
    PairedInner n (Eval.inner cfg fuel ω) (Eval.inner cfg fuel ω') := by
  induction fuel with
  | zero => exact ⟨fun _ _ => .stuck, fun _ _ => .stuck⟩
  | succ fuel ih => exact ⟨fun he e => ih.exprRule cfg he e, fun he s => ih.stmtRule fuel he s⟩

theorem program_pairs (cfg : Config) (fuel : Nat) {env env' : Env} (he : env.Twin n k env')
    {last last' : Value} (hlast : last.Twin n k last') (stmts : List Stmt) :
    Pairs n k (Value.Twin n) (Eval.program cfg fuel env last stmts : Eval ω Value)
      (Eval.program cfg fuel env' last' stmts : Eval ω' Value) := by
  induction stmts generalizing k last last' with
  | nil => exact .value hlast
  | cons s rest ih =>
    refine .bind ((paired_inner n cfg fuel).stmt he s) fun j hj flow flow' hflow => ?_
    cases hflow with
    | normal hv => exact ih (he.mono hj) hv
    | ret hv => exact .value hv
    | leave _ | skip _ => exact .value (hlast.mono hj)

end Sable
