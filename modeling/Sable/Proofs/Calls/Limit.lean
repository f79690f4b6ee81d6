import Sable.Proofs.Runs.Sessions
import Sable.Proofs.Store.Scopes

/-!
# The limit on calls

A call whose arguments are bound when the stack is full ends the run. For programs with `PlainFallbacks`
the calls in progress are bounded by the limit too; `CodeLaw.declaring` carries the condition to every
function that is called. Where the fallback of a function calls the function itself, there is no bound
(`endlessFallback`).
-/

namespace Sable

/-- The function is declared in the statement, at any depth. -/
inductive Stmt.Declares : Stmt → Function → Prop
  | here {s : Stmt} {f : Function} (h : f ∈ s.functions) : Declares s f
  | part {s : Stmt} {x : List Enclosing × Stmt} {f : Function} (hx : x ∈ s.parts [])
      (h : Declares x.2 f) : Declares s f
  | body {s t : Stmt} {f g : Function} (hg : g ∈ s.functions) (ht : t ∈ g.body)
      (h : Declares t f) : Declares s f

/-- The law that all functions declared anywhere in the code have the given property. -/
def CodeLaw.declaring (P : Function → Prop) : CodeLaw where
  stmt s := ∀ f, s.Declares f → P f
  function f := P f ∧ ∀ s ∈ f.body, ∀ g, s.Declares g → P g
  part hs hx _ hf := hs _ (.part hx hf)
  declared hs hf := ⟨hs _ (.here hf), fun _ ht _ hg => hs _ (.body hf ht hg)⟩
  body hf hs := hf.2 _ hs

/-- No function declared in the program makes a call in a fallback. -/
def Program.PlainFallbacks (p : Program) : Prop :=
  ∀ s ∈ p.body, ∀ f, s.Declares f → f.PlainFallbacks

namespace Session

/-- The run of a program in a session keeps the stack within the limit, and is orderly. -/
theorem Reached.run_orderly {law : CodeLaw} {P : Program → Prop} {s : Session} (hs : Reached P s)
    (hP : ∀ p, P p → ∀ t ∈ p.body, law.stmt t) {p : Program} (hp : P p) (cfg : Config) (fuel : Nat) :
    (∀ x ∈ s.history cfg fuel p, x.machine.context.depth ≤ cfg.settings.maxCallDepth) ∧
    ∃ o, s.run cfg fuel p = s.after o ∧ Orderly law cfg false s.machine (s.history cfg fuel p) o := by
  obtain ⟨hstore, hcalls, -⟩ := hs.lawful hP
  obtain ⟨o, hrun, -, hend, ho⟩ := run_course cfg fuel hstore (hP p hp)
  have hzero : s.machine.context.depth = 0 := by
    show s.context.calls.length = 0
    rw [hcalls]
    rfl
  obtain ⟨m', ht⟩ := hend.trace
  exact ⟨ht.depth_le (by rw [hzero]; exact Nat.zero_le _), o, hrun, ho⟩

/-- No more calls are on the stack than the limit says, and a call for which there is no room ends the
run with the fault that says so. Where no fallback makes a call, the calls in progress exceed the
limit by at most one, the call that is having its arguments bound. -/
theorem calls_capped (s : Session) (p : Program) (cfg : Config) (fuel : Nat) :
    (Reached (fun _ => True) s → ∀ x ∈ s.history cfg fuel p,
      x.machine.context.depth ≤ cfg.settings.maxCallDepth ∧
      (x.Refused cfg →
        ∃ s', s.run cfg fuel p = some (.error (.callDepth cfg.settings.maxCallDepth), s'))) ∧
    (Reached Program.PlainFallbacks s → p.PlainFallbacks →
      ∀ h, h <+: s.history cfg fuel p → callsAfter 0 h ≤ cfg.settings.maxCallDepth + 1) := by
  refine ⟨fun hs x hx => ?_, fun hs hp h hh => ?_⟩
  · have hlaw : ∀ p : Program, True → ∀ t ∈ p.body, CodeLaw.any.stmt t := fun _ _ _ _ => trivial
    obtain ⟨hdepth, o, hrun, ho⟩ := hs.run_orderly hlaw (p := p) trivial cfg fuel
    refine ⟨hdepth x hx, fun hrefused => ?_⟩
    obtain ⟨m, rfl⟩ := ho.refused x hx hrefused
    exact ⟨_, hrun⟩
  · have hlaw : ∀ p, Program.PlainFallbacks p → ∀ t ∈ p.body,
        (CodeLaw.declaring FunctionOf.PlainFallbacks).stmt t := fun _ hp => hp
    obtain ⟨hdepth, o, -, ho⟩ := hs.run_orderly hlaw hp cfg fuel
    have hcapped : Capped 0 (s.history cfg fuel p) :=
      ho.capped (fun f hf => hf.1) 0 (Nat.zero_le _)
    exact hcapped.calls_le (Nat.zero_le _) hdepth hh

end Session

/-- A statement without parts that declares no function itself declares none. -/
theorem Stmt.not_declares {s : Stmt} {f : Function} (hparts : s.parts [] = [])
    (hfunctions : s.functions = []) : ¬ s.Declares f := by
  intro h
  cases h with
  | here hf => simp [hfunctions] at hf
  | part hx => simp [hparts] at hx
  | body hg => simp [hfunctions] at hg

/-- A function that calls itself, and a call of it. -/
def endlessRecursion : String :=
  "fn f(n = 1) \x7b return f(n) \x7d\nf(null)"

/-- A function with a number for its only fallback, which returns a call, and a call. -/
def Program.isRecursion (p : Program) : Bool :=
  match p.body with
  | [.function ⟨_, _, _, [⟨_, _, some (.number _ _)⟩], _, [.ret (some (.call _ _ _)) _], _⟩,
      .expr (.call _ _ _)] => true
  | _ => false

theorem Program.plainFallbacks_of_isRecursion {p : Program} (h : p.isRecursion = true) :
    p.PlainFallbacks := by
  unfold isRecursion at h
  split at h
  case h_2 => cases h
  case h_1 hbody =>
    intro s hs f hf
    rw [hbody] at hs
    rcases List.mem_cons.1 hs with rfl | hs
    · cases hf with
      | here hf =>
        rw [List.mem_singleton.1 hf]
        intro x hx e he
        rw [List.mem_singleton.1 hx] at he
        cases he
        exact .number _ _
      | part hx => cases hx
      | body hg ht h =>
        rw [List.mem_singleton.1 hg] at ht
        rw [List.mem_singleton.1 ht] at h
        exact absurd h (Stmt.not_declares rfl rfl)
    · rw [List.mem_singleton.1 hs] at hf
      exact absurd hf (Stmt.not_declares rfl rfl)

theorem endlessRecursion_capped :
    let cfg : Config := { file := "main", settings := { maxCallDepth := 2 } }
    ∃ p, Program.parse "main" endlessRecursion = .ok p ∧ p.PlainFallbacks ∧
      (∃ x ∈ Session.start.history cfg 40 p, x.Refused cfg) ∧
      (∃ s, Session.start.run cfg 40 p = some (.error (.callDepth 2), s)) ∧
      ∀ h, h <+: Session.start.history cfg 40 p → callsAfter 0 h ≤ 3 := by
  intro cfg
  have hrun : (Program.parse "main" endlessRecursion).toOption.any (fun p => p.isRecursion &&
      decide (∃ x ∈ Session.start.history cfg 40 p, x.Refused cfg)) = true := by decide +kernel
  obtain ⟨p, hp, hrun⟩ := exists_of_toOption_any hrun
  rw [Bool.and_eq_true, decide_eq_true_eq] at hrun
  obtain ⟨hshape, x, hx, hrefused⟩ := hrun
  have hplain := Program.plainFallbacks_of_isRecursion hshape
  exact ⟨p, hp, hplain, ⟨x, hx, hrefused⟩,
    ((Session.calls_capped _ _ cfg 40).1 .start x hx).2 hrefused,
    (Session.calls_capped _ _ cfg 40).2 .start hplain⟩

/-! ### A fallback that calls its own function -/

/-- From these scopes the names stand for a function and for null. -/
structure Store.Offers (s : Store) (f : Closure) (callee arg : Name) (env : Env) : Prop where
  callee : s.lookup env callee.text = .ok (.function f)
  arg : s.lookup env arg.text = .ok .null

namespace Store.Offers

variable {s : Store} {f : Closure} {callee arg : Name} {env : Env}

theorem inside_newScope (h : s.Offers f callee arg env) :
    (s.newScope env).2.Offers f callee arg (s.newScope env).1 where
  callee := (lookup_newScope ..).trans h.callee
  arg := (lookup_newScope ..).trans h.arg

theorem outside_newScope (h : s.Offers f callee arg env) (inside : Env) :
    (s.newScope inside).2.Offers f callee arg env where
  callee := (lookup_outside_newScope ..).trans h.callee
  arg := (lookup_outside_newScope ..).trans h.arg

end Store.Offers

/-- A plain function whose only parameter falls back to a call of `callee` with `arg`. -/
structure Function.FallsBack (f : Function) (callee arg : Name) (span : Span) : Prop where
  generic : f.typeParams = []
  receiver : f.receiver = none
  params : ∃ x type, f.params = [⟨x, type, some (.call (.var callee) [.var arg] span)⟩]

section

variable {f : Closure} {callee arg : Name} {span : Span}

/-- If the call in the fallback runs out of fuel, so does a call of such a function with null. -/
theorem Inner.call_fallsBack {ω : Type} [Observer ω] {cfg : Config}
    (hf : Function.FallsBack f.function callee arg span) {inner : Inner ω}
    (hvar : ∀ env name, inner.expr env (.var name) = Eval.query fun s => s.lookup env name.text)
    {env : Env} {m : Machine} {callee' arg' : Name} (henv : m.store.Offers f callee' arg' env)
    {w w' : ω} (span' : Span)
    (h : inner.expr (m.store.newScope f.env).1 (.call (.var callee) [.var arg] span)
        { m with store := (m.store.newScope f.env).2 }
        (Observer.see (Observer.see (Observer.see w ⟨.called f.function, m⟩)
          ⟨.changed, { m with store := (m.store.newScope f.env).2 }⟩)
          ⟨.resolving [], { m with store := (m.store.newScope f.env).2 }⟩) = .exhausted w') :
    inner.call cfg env (.var callee') [.var arg'] span' m w = .exhausted w' := by
  obtain ⟨x, type, hparams⟩ := hf.params
  have hcall : inner.call cfg env (.var callee') [.var arg'] span' m w =
      inner.callFunction cfg f [.null] none span' m w := by
    simp only [Inner.call, Inner.exprs, Inner.callValue, Bind.bind, Eval.bind, Pure.pure, Eval.pure,
      hvar, Eval.query, henv.callee, henv.arg]
  have hargs (name : String) (subst : Subst) :
      inner.bindArgs name (m.store.newScope f.env).1 subst (f.function.params.zip [.null])
        { m with store := (m.store.newScope f.env).2 }
        (Observer.see (Observer.see (Observer.see w ⟨.called f.function, m⟩)
          ⟨.changed, { m with store := (m.store.newScope f.env).2 }⟩)
          ⟨.resolving [], { m with store := (m.store.newScope f.env).2 }⟩) = .exhausted w' := by
    simp only [hparams, List.zip_cons_cons, Inner.bindArgs, Bind.bind, Eval.bind, h]
  have hlength : ¬ [Value.null].length ≠ f.function.params.length := by simp [hparams]
  rw [hcall]
  unfold Inner.callFunction Eval.asCall
  simp only [hf.receiver, if_neg hlength, hf.generic, TypeParam.bounds, List.filterMap_nil,
    Store.evalTypeParams, Bind.bind, Eval.bind, Eval.report, Eval.ending, Eval.create, Eval.resolve,
    Eval.query, Pure.pure, Eval.pure, hargs]

/-- A call of such a function with null uses up any fuel. One call is in progress then for each unit
of it but one. -/
theorem Eval.expr_fallsBack (cfg : Config) (hf : Function.FallsBack f.function callee arg span)
    (fuel : Nat) {env : Env} {m : Machine} {callee' arg' : Name} (span' : Span)
    (henv : m.store.Offers f callee' arg' env) (hdecl : m.store.Offers f callee arg f.env) :
    ∃ h, (∀ (ω : Type) [Observer ω] (w : ω),
        Eval.expr cfg fuel env (.call (.var callee') [.var arg'] span') m w =
          .exhausted (h.foldl Observer.see w)) ∧
      ∀ n, callsAfter n h = n + (fuel - 1) := by
  induction fuel generalizing env m callee' arg' span' with
  | zero => exact ⟨[], fun _ _ _ => rfl, fun _ => rfl⟩
  | succ fuel ih =>
    cases fuel with
    | zero => exact ⟨[], fun _ _ _ => rfl, fun _ => rfl⟩
    | succ fuel =>
      obtain ⟨h, hrun, hcalls⟩ := ih (m := { m with store := (m.store.newScope f.env).2 }) span
        hdecl.inside_newScope (hdecl.outside_newScope f.env)
      refine ⟨⟨.called f.function, m⟩ ::
        ⟨.changed, { m with store := (m.store.newScope f.env).2 }⟩ ::
        ⟨.resolving [], { m with store := (m.store.newScope f.env).2 }⟩ :: h,
        fun ω _ w => ?_, fun n => ?_⟩
      · exact Inner.call_fallsBack hf (fun _ _ => rfl) henv span' (hrun ω _)
      · show callsAfter (n + 1) h = n + (fuel + 1)
        rw [hcalls]
        omega

/-- The scopes bind null, and the name of the function is free in the innermost one. -/
structure Store.Awaits (s : Store) (f : Function) (env : Env) : Prop where
  inside : env.here < s.scopes.size
  free : (s.scope env.here).vars.lookup f.name.text = none
  null : s.lookup env "null" = .ok .null

/-- The calls are of the function, with null. -/
structure Function.Calls (f : Function) (callee arg : Name) : Prop where
  callee : callee.text = f.name.text
  arg : arg.text = "null"
  distinct : f.name.text ≠ "null"

theorem Store.Awaits.offers {s : Store} {f : Function} {env : Env} (h : s.Awaits f env)
    (hc : f.Calls callee arg) {modifier : Modifier} {type : Option Ty} :
    (s.bind env.here f.name.text ⟨.function ⟨f, env⟩, modifier, type⟩).Offers ⟨f, env⟩ callee arg
      env where
  callee := by
    rw [hc.callee]
    exact lookup_bind_self h.inside
  arg := by
    rw [hc.arg, lookup_bind_of_ne hc.distinct.symm]
    exact h.null

/-- The same for a program that declares such a function and calls it. -/
theorem Eval.program_fallsBack (cfg : Config) {f : Function} (hf : f.FallsBack callee arg span)
    (hc : f.Calls callee arg) {callee' arg' : Name} (hc' : f.Calls callee' arg') {m : Machine}
    {env : Env} (henv : m.store.Awaits f env) (span' : Span) (fuel : Nat) :
    ∃ h, (∀ (ω : Type) [Observer ω] (w : ω),
        Eval.program cfg fuel env .nothing
          [.function f, .expr (.call (.var callee') [.var arg'] span')] m w =
          .exhausted (h.foldl Observer.see w)) ∧
      ∀ n, callsAfter n h = n + (fuel - 2) := by
  cases fuel with
  | zero => exact ⟨[], fun _ _ _ => rfl, fun _ => rfl⟩
  | succ fuel =>
    let b : Binding := ⟨.function ⟨f, env⟩, .final, some (m.store.typeOf (.function ⟨f, env⟩))⟩
    have hdeclaration :
        m.store.declaration env f.name.text (.function ⟨f, env⟩) .final none = .ok b := by
      simp only [Store.declaration, henv.free]
      rfl
    obtain ⟨h, hrun, hcalls⟩ := Eval.expr_fallsBack cfg (f := ⟨f, env⟩)
      (m := { m with store := m.store.bind env.here f.name.text b }) hf fuel span'
      (henv.offers hc') (henv.offers hc)
    refine ⟨⟨.changed, { m with store := m.store.bind env.here f.name.text b }⟩ :: h,
      fun ω _ w => ?_, hcalls⟩
    simp only [Eval.program, Eval.stmt, Inner.stmtRule, Eval.declare, Bind.bind, Eval.bind,
      Eval.query, hdeclaration, Eval.change, Eval.report, Pure.pure, Eval.pure, hrun]
    rfl

end

theorem Eval.inRun_exhausted {ω α : Type} [Observer ω] {cfg : Config} {body : Eval ω α} {m : Machine}
    {w w' : ω} (h : body ⟨m.store, m.context.clearFailure⟩
      (Observer.see w ⟨.changed, ⟨m.store, m.context.clearFailure⟩⟩) = .exhausted w') :
    Eval.inRun cfg body m w = .exhausted w' := by
  simp only [Eval.inRun, Eval.bind, Eval.note, Eval.report, Eval.ending, h]

/-- A program that declares such a function, to call it with null, gives no answer, and there is no
limit to the calls in progress, whatever the setting. -/
theorem Session.run_fallsBack {s : Session} {f : Function} {callee arg : Name} {span : Span}
    (hf : f.FallsBack callee arg span) (hc : f.Calls callee arg) {callee' arg' : Name}
    (hc' : f.Calls callee' arg') (hs : s.store.Awaits f s.globals) {p : Program} {span' : Span}
    (hp : p.body = [.function f, .expr (.call (.var callee') [.var arg'] span')]) (cfg : Config)
    (fuel : Nat) :
    s.run cfg fuel p = none ∧ callsAfter 0 (s.history cfg fuel p) = fuel - 2 := by
  let m : Machine := ⟨s.store, s.context.clearFailure⟩
  obtain ⟨h, hrun, hcalls⟩ := Eval.program_fallsBack cfg hf hc hc' (m := m) hs span' fuel
  have hwatch {ω : Type} [Observer ω] (w : ω) : s.watch cfg fuel p w =
      (none, (⟨.changed, m⟩ :: h).foldl Observer.see w) := by
    have hbody : Eval.inRun cfg (Eval.program cfg fuel s.globals .nothing p.body) s.machine w =
        .exhausted ((⟨.changed, m⟩ :: h).foldl Observer.see w) := by
      rw [hp]
      exact Eval.inRun_exhausted (hrun ω _)
    simp only [watch, hbody]
    rfl
  have hhistory : s.history cfg fuel p = ⟨.changed, m⟩ :: h := by
    rw [history, hwatch, foldl_see]
    rfl
  refine ⟨by rw [run, hwatch], ?_⟩
  rw [hhistory]
  exact (hcalls 0).trans (Nat.zero_add _)

theorem Session.start_awaits {f : Function} (h : f.name.text = "f") :
    Session.start.store.Awaits f Session.start.globals where
  inside := by decide
  free := by
    rw [h]
    exact Option.isNone_iff_eq_none.1 (by decide)
  null := rfl

/-- A call in the fallback of a call in a fallback, so that three calls are in progress. -/
def nestedFallbacks : String :=
  "fn a() \x7b return \"ok\" \x7d\nfn b(x = a()) \x7b return x \x7d\n" ++
    "fn c(x = b(null)) \x7b return x \x7d\nc(null)"

/-- A function that calls itself in a fallback, and a call of it. -/
def endlessFallback : String :=
  "fn f(x = f(null)) \x7b \x7d\nf(null)"

def Value.isText (text : String) : Value → Bool
  | .text other => text == other
  | _ => false

theorem Value.eq_text_of_isText {v : Value} {text : String} (h : v.isText text = true) :
    v = .text text := by
  cases v with
  | text other => rw [eq_of_beq h]
  | _ => cases h

/-- The function `f` with a call of itself for its only fallback, and a call of it. -/
def Program.fallsBack (p : Program) : Bool :=
  match p.body with
  | [.function ⟨name, [], none, [⟨_, _, some (.call (.var c) [.var a] _)⟩], _, _, _⟩,
      .expr (.call (.var c') [.var a'] _)] =>
    decide (name.text = "f" ∧ c.text = "f" ∧ a.text = "null" ∧ c'.text = "f" ∧ a'.text = "null")
  | _ => false

theorem Session.run_of_fallsBack {p : Program} (h : p.fallsBack = true) (cfg : Config) (fuel : Nat) :
    Session.start.run cfg fuel p = none ∧
      callsAfter 0 (Session.start.history cfg fuel p) = fuel - 2 := by
  unfold Program.fallsBack at h
  split at h
  case h_2 => cases h
  case h_1 hbody =>
    obtain ⟨hname, hc, ha, hc', ha'⟩ := of_decide_eq_true h
    have hnull : ("f" : String) ≠ "null" := by decide
    rw [← hname] at hc hc' hnull
    exact Session.run_fallsBack ⟨rfl, rfl, _, _, rfl⟩ ⟨hc, ha, hnull⟩ ⟨hc', ha', hnull⟩
      (Session.start_awaits hname) hbody cfg fuel

/-- The limit does not bound calls in fallbacks: three are in progress where one is allowed, and a
program that calls itself in a fallback has any number of them and gives no answer. -/
theorem fallbacks_uncapped :
    (let cfg : Config := { file := "main", settings := { maxCallDepth := 1 } }
    ∃ p, Program.parse "main" nestedFallbacks = .ok p ∧
      (∃ s, Session.start.run cfg 40 p = some (.ok (.text "ok"), s)) ∧
      ∃ h, h <+: Session.start.history cfg 40 p ∧ callsAfter 0 h = 3) ∧
    ∃ p, Program.parse "main" endlessFallback = .ok p ∧ ∀ cfg fuel,
      Session.start.run cfg fuel p = none ∧
      callsAfter 0 (Session.start.history cfg fuel p) = fuel - 2 := by
  refine ⟨?_, ?_⟩
  · intro cfg
    have hrun : (Program.parse "main" nestedFallbacks).toOption.any (fun p =>
        (Session.start.run cfg 40 p).any (fun r => r.1.toOption.any (·.isText "ok")) &&
        decide (∃ n ∈ List.range 40, callsAfter 0 ((Session.start.history cfg 40 p).take n) = 3)) =
        true := by decide +kernel
    obtain ⟨p, hp, hrun⟩ := exists_of_toOption_any hrun
    rw [Bool.and_eq_true, decide_eq_true_eq] at hrun
    obtain ⟨hvalue, n, -, hn⟩ := hrun
    obtain ⟨⟨result, s'⟩, hs', hvalue⟩ := (Option.any_eq_true _ _).1 hvalue
    obtain ⟨v, hv, htext⟩ := exists_of_toOption_any hvalue
    obtain rfl : result = .ok v := hv
    rw [Value.eq_text_of_isText htext] at hs'
    exact ⟨p, hp, ⟨s', hs'⟩, _, List.take_prefix n _, hn⟩
  · have hshape : (Program.parse "main" endlessFallback).toOption.any (·.fallsBack) = true := by
      decide +kernel
    obtain ⟨p, hp, hshape⟩ := exists_of_toOption_any hshape
    exact ⟨p, hp, Session.run_of_fallsBack hshape⟩

end Sable
