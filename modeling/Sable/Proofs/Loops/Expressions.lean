import Sable.Proofs.Loops.Simulation
import Sable.Proofs.Runs.Expressions

/-!
# Expressions with an idle scope

`Pairs` for every rule of expressions, from `PairedInner` for what is inside. An expression declares no
names in its scopes, so `Env.Sees` is enough. The scope of a call is a new one in both stores.
-/

namespace Sable

variable {ω ω' : Type} {n k : Nat}

/-- Lists of values that correspond one by one. -/
def Value.Twins (n k : Nat) (vs vs' : List Value) : Prop :=
  List.Forall₂ (Value.Twin n k) vs vs'

theorem Value.Twins.mono {j : Nat} {vs vs' : List Value} (h : Value.Twins n k vs vs') (hj : k ≤ j) :
    Value.Twins n j vs vs' :=
  List.Forall₂.imp (fun _ _ hv => hv.mono hj) h

/-- The evaluators for what is inside are paired by `Pairs`, in environments that see the same. -/
structure PairedInner (n : Nat) (inner : Inner ω) (inner' : Inner ω') : Prop where
  expr : ∀ {k : Nat} {env env' : Env} (_ : env.Sees n k env') (e : Expr),
    Pairs n k (Value.Twin n) (inner.expr env e) (inner'.expr env' e)
  stmt : ∀ {k : Nat} {env env' : Env} (_ : env.Twin n k env') (s : Stmt),
    Pairs n k (Flow.Twin n) (inner.stmt env s) (inner'.stmt env' s)

/-! ### Operators and built-in functions -/

theorem BinaryOp.apply_twin (op : BinaryOp) {left left' right right' : Value}
    (hl : left.Twin n k left') (hr : right.Twin n k right') :
    (op.apply left right).Twin n k (op.apply left' right') := by
  have hsame : op.apply left right = op.apply left' right' := by
    cases hl with
    | function _ =>
      cases hr with
      | function _ => rfl
      | same _ => cases right <;> cases op <;> rfl
    | same _ =>
      cases hr with
      | function _ => cases left <;> cases op <;> rfl
      | same _ => rfl
  rw [← hsame]
  exact .same (op.apply_ne_function left right)

theorem UnaryOp.apply_twin (op : UnaryOp) {v v' : Value} (hv : v.Twin n k v') :
    (op.apply v).Twin n k (op.apply v') := by
  have hsame : op.apply v = op.apply v' := by
    cases hv with
    | function _ => cases op <;> rfl
    | same _ => rfl
  rw [← hsame]
  exact .same (op.apply_ne_function v)

theorem Flow.Twin.result {flow flow' : Flow} (h : flow.Twin n k flow') :
    flow.result.Twin n k flow'.result := by
  cases h with
  | ret hv => exact hv
  | _ => exact .null

namespace PairedInner

variable {inner : Inner ω} {inner' : Inner ω'} {env env' : Env} (hi : PairedInner n inner inner')

include hi

theorem exprs (he : env.Sees n k env') (es : List Expr) :
    Pairs n k (Value.Twins n) (inner.exprs env es) (inner'.exprs env' es) := by
  induction es generalizing k with
  | nil => exact .pure fun _ _ => .nil
  | cons e rest ih =>
    refine .bind (hi.expr he e) fun j hj v v' hv => ?_
    refine .bind (ih (he.mono hj)) fun i hji vs vs' hvs => .pure fun l hil => ?_
    exact .cons (hv.mono (Nat.le_trans hji hil)) (hvs.mono hil)

theorem shown (he : env.Sees n k env') (holes : List Expr) :
    Pairs n k Agree (inner.shown env holes) (inner'.shown env' holes) := by
  induction holes generalizing k with
  | nil => exact .same _
  | cons e rest ih =>
    refine .bind (hi.expr he e) fun j hj v v' hv => ?_
    refine .bind_same (.look fun s s' hs => hs.render_eq hv) fun text => ?_
    exact .bind_same (ih (he.mono hj)) fun texts => .same _

theorem bodyFrom (he : env.Twin n k env') {last last' : Value} (hlast : last.Twin n k last')
    (stmts : List Stmt) :
    Pairs n k (Flow.Twin n) (inner.bodyFrom env last stmts) (inner'.bodyFrom env' last' stmts) := by
  induction stmts generalizing k last last' with
  | nil => exact .pure fun _ hj => .normal (hlast.mono hj)
  | cons s rest ih =>
    refine .bind (hi.stmt he s) fun j hj flow flow' hflow => ?_
    cases hflow with
    | normal hv => exact ih (he.mono hj) hv
    | ret hv => exact .pure fun _ hi => .ret (hv.mono hi)
    | leave id => exact .pure fun _ _ => .leave id
    | skip id => exact .pure fun _ _ => .skip id

theorem body (he : env.Twin n k env') (stmts : List Stmt) :
    Pairs n k (Flow.Twin n) (inner.body env stmts) (inner'.body env' stmts) :=
  hi.bodyFrom he .nothing stmts

end PairedInner

variable [Observer ω] [Observer ω']

namespace Builtin

theorem single_pairs (f : Builtin) {args args' : List Value} (h : Value.Twins n k args args') :
    Pairs n k (Value.Twin n) (f.single args : Eval ω Value) (f.single args' : Eval ω' Value) := by
  have hlength := List.Forall₂.length_eq h
  cases h with
  | nil => exact .raise _
  | cons hv hrest =>
    cases hrest with
    | nil => exact .value hv
    | cons _ _ =>
      show Pairs n k _ (Eval.raise (.arity f.name 1 _)) (Eval.raise (.arity f.name 1 _))
      rw [hlength]
      exact .raise _

theorem length_pairs {v v' : Value} (hv : v.Twin n k v') :
    Pairs n k Agree (length v : Eval ω Nat) (length v' : Eval ω' Nat) := by
  cases hv with
  | function _ => exact .raise _
  | same _ =>
    cases v with
    | text s => exact .same _
    | array a => exact .look fun s s' hs => List.Forall₂.length_eq (hs.array a)
    | object a => exact .look fun s s' hs => List.Forall₂.length_eq (hs.object a).properties
    | _ => exact .raise _

theorem call_pairs (cfg : Config) (f : Builtin) {args args' : List Value}
    (h : Value.Twins n k args args') :
    Pairs n k (Value.Twin n) (f.call cfg args : Eval ω Value) (f.call cfg args' : Eval ω' Value) := by
  cases f with
  | print =>
    refine .bind_same (.look fun s s' hs => ?_) fun line => .bind_same (.note _) fun _ => .value .null
    rw [map_eq_of_forall₂ h fun _ _ hv => hs.render_eq hv]
  | len =>
    exact .bind (single_pairs _ h) fun j hj v v' hv =>
      .bind_same (length_pairs hv) fun _ => .value (.same fun _ => nofun)
  | typeof =>
    exact .bind (single_pairs _ h) fun j hj v v' hv =>
      .bind_same (.look fun s s' hs => typeName_eq hs hv) fun _ => .value (.same fun _ => nofun)
  | str =>
    exact .bind (single_pairs _ h) fun j hj v v' hv =>
      .bind_same (.look fun s s' hs => hs.render_eq hv) fun _ => .value (.same fun _ => nofun)
  | time =>
    exact .bind_same (.consult _) fun _ => .bind_same (.note _) fun _ => .value (.same fun _ => nofun)
  | trace => exact .bind_same (.note _) fun _ => .value .null

end Builtin

namespace PairedInner

variable {inner : Inner ω} {inner' : Inner ω'} {env env' : Env} (hi : PairedInner n inner inner')

include hi

/-! ### What is inside a literal or an assignment -/

theorem template (he : env.Sees n k env') (text : String) (names : List String) (holes : List Expr) :
    Pairs n k (Value.Twin n) (inner.template env text names holes)
      (inner'.template env' text names holes) := by
  refine .ite (fun _ => .value (.same fun _ => nofun)) fun _ => .bind_same (hi.shown he holes) fun shown => ?_
  refine .bind_same (.check fun s s' hs => ?_) fun filled => .value (.same fun _ => nofun)
  rw [funext (hs.lookup_render_eq he)]

theorem property (he : env.Sees n k env') (name : Name) (e : Option Expr) :
    Pairs n k (Value.Twin n) (inner.property env name e) (inner'.property env' name e) := by
  cases e with
  | some e => exact hi.expr he e
  | none => exact .query fun s s' hs _ => hs.lookup he name.text

theorem anonymous (he : env.Sees n k env') (given : List (Name × Option Expr)) :
    Pairs n k (fun j => Entries (Value.Twin n j)) (inner.anonymous env given)
      (inner'.anonymous env' given) := by
  induction given generalizing k with
  | nil => exact .pure fun _ _ => .nil
  | cons x rest ih =>
    refine .bind (hi.property he x.1 x.2) fun j hj v v' hv => ?_
    refine .bind (ih (he.mono hj)) fun i hji ps ps' hps => .pure fun l hil => ?_
    exact .cons ⟨rfl, hv.mono (Nat.le_trans hji hil)⟩ (hps.imp fun _ _ hp => hp.mono hil)

theorem fields (he : env.Sees n k env') (struct : String) (subst : Subst)
    (given : List (Name × Option Expr)) (members : List Member) :
    Pairs n k (fun j => Entries (Value.Twin n j)) (inner.fields env struct subst given members)
      (inner'.fields env' struct subst given members) := by
  induction members generalizing k with
  | nil => exact .pure fun _ _ => .nil
  | cons member rest ih =>
    unfold Inner.fields
    cases given.find? (·.1.text == member.name) with
    | none => exact .ite (fun _ => ih he) fun _ => .raise _
    | some x =>
      refine .bind (hi.property he x.1 x.2) fun j hj v v' hv => ?_
      refine .bind_same (.demand (he.mono hj) _ hv _) fun _ => ?_
      refine .bind (ih (he.mono hj)) fun i hji ps ps' hps => .pure fun l hil => ?_
      exact .cons ⟨rfl, hv.mono (Nat.le_trans hji hil)⟩ (hps.imp fun _ _ hp => hp.mono hil)

omit hi in
theorem newObject {tag : Option String} {typeArgs : List Ty} {ps ps' : List (String × Value)}
    (h : Entries (Value.Twin n k) ps ps') {event event' : Value → Event} :
    Pairs n k (Value.Twin n) (Eval.create (·.newObject ⟨tag, typeArgs, ps⟩) event : Eval ω Value)
      (Eval.create (·.newObject ⟨tag, typeArgs, ps'⟩) event' : Eval ω' Value) := by
  refine .create fun s s' hs hsize => ?_
  refine ⟨Nat.le_refl _, hs.newObject ⟨rfl, rfl, h.imp fun _ _ hv => hv.mono hsize⟩, ?_⟩
  show (Value.object s.objects.size).Twin n _ (.object s'.objects.size)
  rw [hs.objects]
  exact .same fun _ => nofun

theorem construct (he : env.Sees n k env') (struct tag : String) (params : List Bound) (args : List Ty)
    (given : List (Name × Option Expr)) (members : List Member) :
    Pairs n k (Value.Twin n) (inner.construct env struct tag params args given members)
      (inner'.construct env' struct tag params args given members) := by
  refine .bind (hi.fields he struct _ given members) fun j hj ps ps' hps => ?_
  cases given.find? fun p => (Member.find? members p.1.text).isNone with
  | some extra => exact .raise _
  | none => exact newObject hps

theorem instantiate (he : env.Sees n k env') (struct : String) (typeArgs : List TypeExpr)
    (given : List (Name × Option Expr)) :
    Pairs n k (Value.Twin n) (inner.instantiate env struct typeArgs given)
      (inner'.instantiate env' struct typeArgs given) := by
  refine .bind_same (.look fun s s' hs => by rw [hs.type?_eq he]) fun type => ?_
  split
  · exact .raise _
  · rename_i tag params members
    refine .bind_same (.resolve _ fun s s' hs => hs.evalTypes_eq he _ _) fun args => ?_
    have hmake := hi.construct he struct tag params args given members
    exact .ite (fun _ => hmake) fun _ => .bind_same (.check fun _ _ _ => rfl) fun _ => hmake
  · exact .raise _

theorem object (he : env.Sees n k env') (struct : Option Name) (typeArgs : List TypeExpr)
    (given : List (Name × Option Expr)) :
    Pairs n k (Value.Twin n) (inner.object env struct typeArgs given)
      (inner'.object env' struct typeArgs given) := by
  cases struct with
  | some struct => exact hi.instantiate he struct.text typeArgs given
  | none => exact .bind (hi.anonymous he given) fun j hj ps ps' hps => newObject hps

omit hi in
/-- The error for a key that is not for this kind of value shows the key. -/
theorem invalidMember {R : Nat → α → β → Prop} {object object' key key' : Value}
    (hobject : object.Twin n k object') (hkey : key.Twin n k key') : Pairs n k R
      (do
        let shown ← Eval.ask (·.render key)
        Eval.raise (.invalidMember shown object.kind) : Eval ω α)
      (do
        let shown ← Eval.ask (·.render key')
        Eval.raise (.invalidMember shown object'.kind) : Eval ω' β) := by
  refine .bind_same (.look fun s s' hs => hs.render_eq hkey) fun shown => ?_
  rw [hobject.kind_eq]
  exact .raise _

omit hi in
theorem writeMember (he : env.Sees n k env') {container container' key key' v v' : Value}
    (hcontainer : container.Twin n k container') (hkey : key.Twin n k key') (hv : v.Twin n k v')
    (path : String) :
    Pairs n k Agree (Inner.writeMember env container key v path : Eval ω Unit)
      (Inner.writeMember env' container' key' v' path : Eval ω' Unit) := by
  -- the error shows container and key, which the case splits take apart
  have hself := hcontainer
  have hshown := hkey
  cases hcontainer with
  | function _ => exact invalidMember hself hshown
  | same _ =>
    cases container with
    | object a =>
      cases hkey with
      | function _ => exact invalidMember hself hshown
      | same _ =>
        cases key with
        | text field =>
          refine .bind_same (.check fun s s' hs => hs.checkField_eq he (hs.object a) field hv) fun _ => ?_
          exact .change fun s s' hs hsize => ⟨rfl, hs.setProperty a field (hv.mono hsize)⟩
        | _ => exact invalidMember hself hshown
    | array a =>
      cases hkey with
      | function _ => exact .raise _
      | same _ =>
        cases key with
        | number x =>
          refine .bind_same (.look fun s s' hs => List.Forall₂.length_eq (hs.array a)) fun size => ?_
          cases Number.slot? x size with
          | some slot =>
            exact .change fun s s' hs hsize => ⟨rfl, hs.setElement a slot (hv.mono hsize)⟩
          | none => exact .raise _
        | _ => exact .raise _
    | _ => exact invalidMember hself hshown

theorem assignMember (he : env.Sees n k env') (object value : Expr) {key : Eval ω Value}
    {key' : Eval ω' Value} (hkey : ∀ j, k ≤ j → Pairs n j (Value.Twin n) key key') :
    Pairs n k (Value.Twin n) (inner.assignMember env object key value)
      (inner'.assignMember env' object key' value) := by
  unfold Inner.assignMember
  cases object.root? with
  | none => exact .raise _
  | some root =>
    refine .bind_same (.check fun s s' hs => hs.checkMutable_eq he root) fun _ => ?_
    refine .bind (hi.expr he object) fun j hj container container' hcontainer => ?_
    refine .bind (hkey j hj) fun i hji x x' hx => ?_
    refine .bind (hi.expr (he.mono (Nat.le_trans hj hji)) value) fun l hil v v' hv => ?_
    have hl := Nat.le_trans hji hil
    refine .bind_same (writeMember (he.mono (Nat.le_trans hj hl)) (hcontainer.mono hl) (hx.mono hil)
      hv object.path) fun _ => .value hv

/-- The scope of a block is a new one, so the block may stand in the idle scope. -/
theorem block (he : env.Sees n k env') (stmts : List Stmt) :
    Pairs n k (Flow.Twin n) (inner.block env stmts) (inner'.block env' stmts) :=
  .bind (.newScope he) fun _ _ _ _ hscope => hi.body hscope stmts

/-! ### Calls -/

theorem bindArgs (function : String) {scope scope' : Env} (he : scope.Twin n k scope') (subst : Subst)
    {params : List Param} {args args' : List Value} (hargs : Value.Twins n k args args') :
    Pairs n k Agree (inner.bindArgs function scope subst (params.zip args))
      (inner'.bindArgs function scope' subst (params.zip args')) := by
  induction params generalizing k args args' with
  | nil => exact .same ()
  | cons param params ih =>
    cases hargs with
    | nil => exact .same ()
    | @cons arg arg' args args' harg hrest =>
      obtain ⟨name, annotation, fallback⟩ := param
      have hrest : Value.Twins n k args args' := hrest
      -- the fallback may have made scopes, so the rest is bound in a later store
      have hbind {j : Nat} (hj : k ≤ j) {v v' : Value} (hv : v.Twin n j v') : Pairs n j Agree
          (do
            let type ← Eval.resolve annotation.toList fun store =>
              store.evalResult scope subst annotation
            Eval.demand? scope type v (.paramMismatch name.text function)
            Eval.declare scope name.text v .mutable type
            inner.bindArgs function scope subst (params.zip args) : Eval ω Unit)
          (do
            let type ← Eval.resolve annotation.toList fun store =>
              store.evalResult scope' subst annotation
            Eval.demand? scope' type v' (.paramMismatch name.text function)
            Eval.declare scope' name.text v' .mutable type
            inner'.bindArgs function scope' subst (params.zip args') : Eval ω' Unit) := by
        have hscope := he.mono hj
        refine .bind_same (.resolve _ fun s s' hs => hs.evalResult_eq hscope.sees _ _) fun type => ?_
        refine .bind_same (.demand? hscope.sees type hv _) fun _ => ?_
        refine .bind_same (.declare hscope name.text hv _ type) fun _ => ?_
        exact ih hscope (hrest.mono hj)
      cases fallback with
      | none => exact hbind (Nat.le_refl k) harg
      | some e =>
        cases harg with
        | function h => exact hbind (Nat.le_refl k) (.function h)
        | same h =>
          cases arg with
          | null => exact .bind (hi.expr he.sees e) fun j hj v v' hv => hbind hj hv
          | _ => exact hbind (Nat.le_refl k) (.same h)

theorem callFunction (cfg : Config) (f : Function) (he : env.Sees n k env') {args args' : List Value}
    (hargs : Value.Twins n k args args') {receiver receiver' : Option Value}
    (hreceiver : Option.Rel (Value.Twin n k) receiver receiver') (span : Span) :
    Pairs n k (Value.Twin n) (inner.callFunction cfg ⟨f, env⟩ args receiver span)
      (inner'.callFunction cfg ⟨f, env'⟩ args' receiver' span) := by
  -- from the arguments on
  have hrun {j : Nat} (hj : k ≤ j) {scope scope' : Env} (hscope : scope.Twin n j scope') (subst : Subst) :
      Pairs n j (Value.Twin n)
        (do
          inner.bindArgs f.name.text scope subst (f.params.zip args)
          let flow ← Eval.inCall cfg f ⟨f.name.text, span⟩ (inner.body scope f.body)
          Eval.report (.finished f flow)
          let type ← Eval.resolve f.result.toList fun store => store.evalResult scope subst f.result
          Eval.demand? scope type flow.result (.returnMismatch f.name.text)
          return flow.result : Eval ω Value)
        (do
          inner'.bindArgs f.name.text scope' subst (f.params.zip args')
          let flow ← Eval.inCall cfg f ⟨f.name.text, span⟩ (inner'.body scope' f.body)
          Eval.report (.finished f flow)
          let type ← Eval.resolve f.result.toList fun store => store.evalResult scope' subst f.result
          Eval.demand? scope' type flow.result (.returnMismatch f.name.text)
          return flow.result : Eval ω' Value) := by
    refine .bind_same (hi.bindArgs _ hscope subst (hargs.mono hj)) fun _ => ?_
    refine .bind (.inCall cfg f _ (hi.body hscope f.body) fun _ _ _ _ hij h => h.mono hij) fun i hji
      flow flow' hflow => ?_
    have hsees := hscope.sees.mono hji
    refine .bind_same (.report _ _) fun _ => ?_
    refine .bind_same (.resolve _ fun s s' hs => hs.evalResult_eq hsees _ _) fun type => ?_
    exact .bind_same (.demand? hsees type hflow.result _) fun _ => .value hflow.result
  have hlength := List.Forall₂.length_eq hargs
  unfold Inner.callFunction
  refine .asCall f (?_ : Pairs n k _ _ _) fun _ _ _ _ hij h => h.mono hij
  simp only [hlength]
  refine .ite (fun _ => .raise _) fun _ => .bind (.newScope he) fun j hj scope scope' hscope => ?_
  refine .bind_same (.resolve _ fun s s' hs => hs.evalTypeParams_eq (he.mono hj) _ _) fun x => ?_
  obtain ⟨bounds, subst⟩ := x
  cases f.receiver with
  | none => exact hrun hj hscope subst
  | some self =>
    cases hreceiver with
    | none => exact hrun hj hscope subst
    | some hobject =>
      exact .bind_same (.declare hscope self.text (hobject.mono hj) _ none) fun _ => hrun hj hscope subst

theorem callValue (cfg : Config) {callee callee' : Value} (hcallee : callee.Twin n k callee')
    {args args' : List Value} (hargs : Value.Twins n k args args') {receiver receiver' : Option Value}
    (hreceiver : Option.Rel (Value.Twin n k) receiver receiver') (span : Span) :
    Pairs n k (Value.Twin n) (inner.callValue cfg callee args receiver span)
      (inner'.callValue cfg callee' args' receiver' span) := by
  cases hcallee with
  | @function f _ _ he => exact hi.callFunction cfg f he hargs hreceiver span
  | same hne =>
    cases callee with
    | builtin f => exact f.call_pairs cfg hargs
    | function f => exact absurd rfl (hne f)
    | _ => exact .raise _

/-! ### Members -/

theorem readProperty (cfg : Config) (he : env.Sees n k env') {object object' : Value}
    (hobject : object.Twin n k object') (name : String) (span : Span) :
    Pairs n k (Value.Twin n) (inner.readProperty cfg env object name span)
      (inner'.readProperty cfg env' object' name span) := by
  have hself := hobject
  cases hobject with
  | function _ => exact .raise _
  | same _ =>
    cases object with
    | object a =>
      have hask : Pairs n k (Obj.Twin n) (Eval.ask (·.object a) : Eval ω Obj)
          (Eval.ask (·.object a) : Eval ω' Obj) := .ask fun s s' hs _ => hs.object a
      refine .bind hask fun j hj o o' ho => ?_
      obtain ⟨tag, typeArgs, properties⟩ := o
      obtain ⟨tag', typeArgs', properties'⟩ := o'
      obtain rfl : tag' = tag := ho.tag
      have hfound := ho.properties.lookup name
      dsimp only at hfound ⊢
      generalize properties.lookup name = x at hfound ⊢
      generalize properties'.lookup name = y at hfound ⊢
      cases hfound with
      | some hv => exact .value hv
      | none =>
        -- the property itself comes first, then a getter, and an optional member that is absent is
        -- null
        cases tag' with
        | none => exact .raise _
        | some tag =>
          have hgetter : Pairs n j (fun i => Option.Rel (Value.Twin n i))
              (Eval.ask (·.getter? env tag name) : Eval ω (Option Value))
              (Eval.ask (·.getter? env' tag name) : Eval ω' (Option Value)) :=
            .ask fun s s' hs _ => hs.getter? he tag name
          refine .bind hgetter fun i hji getter getter' hg => ?_
          cases hg with
          | some hg =>
            exact hi.callValue cfg hg .nil (.some (hself.mono (Nat.le_trans hj hji))) span
          | none =>
            refine .bind_same (.look fun s s' hs => hs.structMembers?_eq he tag) fun members => ?_
            exact .ite (fun _ => .value .null) fun _ => .raise _
    | array a =>
      refine .ite (fun _ => ?_) fun _ => .raise _
      exact .bind_same (.look fun s s' hs => List.Forall₂.length_eq (hs.array a)) fun _ =>
        .value (.same fun _ => nofun)
    | text s => exact .ite (fun _ => .value (.same fun _ => nofun)) fun _ => .raise _
    | _ => exact .raise _

omit hi in
theorem rel_getElem? {items items' : Array Value} (h : Value.Twins n k items.toList items'.toList)
    (x : Float) : Option.Rel (Value.Twin n k) ((Number.slot? x items.size).bind (items[·]?))
      ((Number.slot? x items'.size).bind (items'[·]?)) := by
  have hsize : items.size = items'.size := List.Forall₂.length_eq h
  rw [hsize]
  cases Number.slot? x items'.size with
  | none => exact .none
  | some slot =>
    simp only [Option.bind_some, ← Array.getElem?_toList]
    generalize items.toList = xs at h ⊢
    generalize items'.toList = ys at h ⊢
    induction h generalizing slot with
    | nil => exact .none
    | cons hv _ ih =>
      cases slot with
      | zero => exact .some hv
      | succ slot => exact ih slot

theorem readIndex (cfg : Config) (he : env.Sees n k env') {object object' key key' : Value}
    (hobject : object.Twin n k object') (hkey : key.Twin n k key') (path : String) (span : Span) :
    Pairs n k (Value.Twin n) (inner.readIndex cfg env object key path span)
      (inner'.readIndex cfg env' object' key' path span) := by
  have hself := hobject
  have hshown := hkey
  cases hobject with
  | function _ => exact invalidMember hself hshown
  | same _ =>
    cases object with
    | array a =>
      cases hkey with
      | function _ => exact .raise _
      | same _ =>
        cases key with
        | number x =>
          have hask : Pairs n k (fun j items items' => Value.Twins n j items.toList items'.toList)
              (Eval.ask (·.array a) : Eval ω (Array Value))
              (Eval.ask (·.array a) : Eval ω' (Array Value)) := .ask fun s s' hs _ => hs.array a
          refine .bind hask fun j hj items items' hitems => ?_
          have hfound := rel_getElem? hitems x
          generalize (Number.slot? x items.size).bind (items[·]?) = v at hfound ⊢
          generalize (Number.slot? x items'.size).bind (items'[·]?) = v' at hfound ⊢
          cases hfound with
          | some hv => exact .value hv
          | none => exact .raise _
        | _ => exact .raise _
    | text s =>
      cases hkey with
      | function _ => exact .raise _
      | same _ =>
        cases key with
        | number x =>
          simp only [Inner.readIndex]
          cases (Number.slot? x s.length).bind (s.toList[·]?) with
          | some c => exact .value (.same fun _ => nofun)
          | none => exact .raise _
        | _ => exact .raise _
    | object a =>
      cases hkey with
      | function _ => exact invalidMember hself hshown
      | same _ =>
        cases key with
        | text name => exact hi.readProperty cfg he hself name span
        | _ => exact invalidMember hself hshown
    | _ => exact invalidMember hself hshown

/-! ### Every form -/

theorem call (cfg : Config) (he : env.Sees n k env') (callee : Expr) (args : List Expr) (span : Span) :
    Pairs n k (Value.Twin n) (inner.call cfg env callee args span)
      (inner'.call cfg env' callee args span) := by
  -- from the function on, with or without a receiver
  have happly {j : Nat} (hj : k ≤ j) {f f' : Value} (hf : f.Twin n j f') {receiver receiver' : Option Value}
      (hr : Option.Rel (Value.Twin n j) receiver receiver') : Pairs n j (Value.Twin n)
        (do
          let args ← inner.exprs env args
          inner.callValue cfg f args receiver span : Eval ω Value)
        (do
          let args ← inner'.exprs env' args
          inner'.callValue cfg f' args receiver' span : Eval ω' Value) := by
    refine .bind (hi.exprs (he.mono hj) args) fun i hji vs vs' hvs => ?_
    refine hi.callValue cfg (hf.mono hji) hvs ?_ span
    cases hr with
    | some hv => exact .some (hv.mono hji)
    | none => exact .none
  have hcallee (e : Expr) : Pairs n k (Value.Twin n)
      (do
        let f ← inner.expr env e
        let args ← inner.exprs env args
        inner.callValue cfg f args none span : Eval ω Value)
      (do
        let f ← inner'.expr env' e
        let args ← inner'.exprs env' args
        inner'.callValue cfg f args none span : Eval ω' Value) :=
    .bind (hi.expr he e) fun j hj f f' hf => happly hj hf .none
  cases callee using Expr.casesOn with
  | member object computed property memberSpan =>
    cases computed with
    | true => exact hcallee _
    | false =>
    refine .bind (hi.expr he object) fun j hj object object' hobject => ?_
    refine .bind_same (.check fun _ _ _ => rfl) fun name => ?_
    -- no method has the name, so the property itself is called, without a receiver
    have hread {i : Nat} (hji : j ≤ i) : Pairs n i (Value.Twin n)
        (do
          let f ← inner.readProperty cfg env object name memberSpan
          let args ← inner.exprs env args
          inner.callValue cfg f args none span : Eval ω Value)
        (do
          let f ← inner'.readProperty cfg env' object' name memberSpan
          let args ← inner'.exprs env' args
          inner'.callValue cfg f args none span : Eval ω' Value) := by
      have hki := Nat.le_trans hj hji
      refine .bind (hi.readProperty cfg (he.mono hki) (hobject.mono hji) name memberSpan)
        fun l hil f f' hf => happly (Nat.le_trans hki hil) hf .none
    have hself := hobject
    cases hobject with
    | function _ => exact hread (Nat.le_refl j)
    | same _ =>
      cases object with
      | object a =>
        have hmethod : Pairs n j (fun i => Option.Rel (Value.Twin n i))
            (Eval.ask fun store => (store.object a).tag.bind fun tag =>
              store.method? env tag name : Eval ω (Option Value))
            (Eval.ask fun store => (store.object a).tag.bind fun tag =>
              store.method? env' tag name : Eval ω' (Option Value)) := by
          refine .ask fun s s' hs _ => ?_
          rw [(hs.object a).tag]
          cases (s.object a).tag with
          | none => exact .none
          | some tag => exact hs.method? he tag name
        refine .bind hmethod fun i hji method method' hm => ?_
        cases hm with
        | some hm => exact happly (Nat.le_trans hj hji) hm (.some (hself.mono hji))
        | none => exact hread hji
      | _ => exact hread (Nat.le_refl j)
  | _ => exact hcallee _

theorem assign (he : env.Sees n k env') (target value : Expr) :
    Pairs n k (Value.Twin n) (inner.assign env target value) (inner'.assign env' target value) := by
  cases target using Expr.casesOn with
  | var name =>
    exact .bind (hi.expr he value) fun j hj v v' hv =>
      .bind_same (.assign (he.mono hj) name.text hv) fun _ => .value hv
  | member object computed property span =>
    refine hi.assignMember he object value fun j hj => ?_
    cases computed with
    | true => exact hi.expr (he.mono hj) property
    | false => exact .bind_same (.check fun _ _ _ => rfl) fun _ => .value (.same fun _ => nofun)
  | _ => exact .raise _

theorem exprRule (cfg : Config) (he : env.Sees n k env') (e : Expr) :
    Pairs n k (Value.Twin n) (Inner.exprRule cfg inner env e) (Inner.exprRule cfg inner' env' e) := by
  cases e using Expr.casesOn with
  | var name => exact .query fun s s' hs _ => hs.lookup he name.text
  | number value span => exact .value (.same fun _ => nofun)
  | text text names holes span => exact hi.template he text names holes
  | array elements span =>
    refine .bind (hi.exprs he elements) fun j hj items items' hitems => .create fun s s' hs hsize => ?_
    refine ⟨Nat.le_refl _, hs.newArray (hitems.mono hsize), ?_⟩
    show (Value.array s.arrays.size).Twin n _ (.array s'.arrays.size)
    rw [hs.arrays]
    exact .same fun _ => nofun
  | object struct typeArgs given span => exact hi.object he struct typeArgs given
  | unary op operand span =>
    exact .bind (hi.expr he operand) fun j hj v v' hv => .value (op.apply_twin hv)
  | binary op left right =>
    refine .bind (hi.expr he left) fun j hj v v' hv => ?_
    exact .bind (hi.expr (he.mono hj) right) fun i hji u u' hu => .value (op.apply_twin (hv.mono hji) hu)
  | assign target value => exact hi.assign he target value
  | member object computed property span =>
    refine .bind (hi.expr he object) fun j hj v v' hv => ?_
    cases computed with
    | true =>
      refine .bind (hi.expr (he.mono hj) property) fun i hji u u' hu => ?_
      exact hi.readIndex cfg (he.mono (Nat.le_trans hj hji)) (hv.mono hji) hu object.path span
    | false =>
      exact .bind_same (.check fun _ _ _ => rfl) fun name =>
        hi.readProperty cfg (he.mono hj) hv name span
  | call callee args span => exact hi.call cfg he callee args span

end PairedInner

end Sable
