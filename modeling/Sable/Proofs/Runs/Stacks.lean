import Sable.Proofs.Runs.Sessions

/-!
# The stacks of calls and loops

`Disciplined`: however an evaluation ends, the calls and loops in progress are those that were in
progress when it began, and at no moment are there more calls than the limit.
-/

namespace Sable

/-- How an evaluation started on `m` treats the stacks. -/
structure Disciplined {α : Type} (cfg : Config) (e : Action α) (m : Machine) : Prop where
  /-- Whoever watches is shown the whole history and changes nothing. -/
  watched : Course e m (e Unit m ()) (history e m)
  /-- From `m` the history leads in single steps to the end, where the stacks are as they were. -/
  restored : ∀ m', (e Unit m ()).machine? = some m' →
    Trace .any cfg m (history e m) m' ∧ m'.context.calls = m.context.calls ∧
      m'.context.loops = m.context.loops
  /-- At no moment are there more calls than may be. -/
  bounded : ∀ x ∈ history e m, x.machine.context.depth ≤ cfg.settings.maxCallDepth

theorem Lawful.disciplined {α : Type} {cfg : Config} {e : Action α} {good : α → Prop}
    (h : Lawful .any cfg e good) {m : Machine} (hm : m.context.depth ≤ cfg.settings.maxCallDepth) :
    Disciplined cfg e m := by
  obtain ⟨o, moments, hc, hend, -⟩ := h m (CodeLaw.any_store _)
  obtain ⟨m', ht⟩ := hend.trace
  rw [← hc.history_eq] at ht hend
  refine ⟨?_, fun m' hm' => ?_, ht.depth_le hm⟩
  · rw [hc.outcome_eq, hc.history_eq]
    exact hc
  · rw [hc.outcome_eq] at hm'
    exact hend.level hm'

/-- Statements, expressions and calls keep the stacks in order, and a session has no call or loop in
progress between its runs. -/
theorem Eval.stack_discipline (cfg : Config) (fuel : Nat) :
    (∀ (env : Env) (s : Stmt) (m : Machine), m.context.depth ≤ cfg.settings.maxCallDepth →
      Disciplined cfg (fun ω _ => (Eval.stmt cfg fuel env s : Eval ω Flow)) m) ∧
    (∀ (env : Env) (e : Expr) (m : Machine), m.context.depth ≤ cfg.settings.maxCallDepth →
      Disciplined cfg (fun ω _ => (Eval.expr cfg fuel env e : Eval ω Value)) m) ∧
    (∀ (callee : Value) (args : List Value) (receiver : Option Value) (span : Span) (m : Machine),
      m.context.depth ≤ cfg.settings.maxCallDepth →
      Disciplined cfg
        (fun ω _ => (Eval.inner cfg fuel ω).callValue cfg callee args receiver span) m) ∧
    ∀ s : Session, Session.Reached (fun _ => True) s →
      s.context.depth = 0 ∧ s.context.activeLoop = none := by
  have hi := lawful_inner .any cfg fuel
  refine ⟨fun env s m hm => ?_, fun env e m hm => ?_, fun callee args receiver span m hm => ?_,
    fun s hs => ?_⟩
  · exact (hi.stmt env s trivial).disciplined hm
  · exact (hi.expr env e).disciplined hm
  · have hany (v : Value) : CodeLaw.any.value v := CodeLaw.any_value v
    exact (hi.callValue (hany callee) (fun v _ => hany v) (fun v _ => hany v) span).disciplined hm
  · obtain ⟨-, hcalls, hloops⟩ : s.store.Lawful .any ∧ s.context.calls = [] ∧ s.context.loops = [] :=
      hs.lawful fun _ _ _ _ => trivial
    refine ⟨?_, ?_⟩
    · rw [Context.depth, hcalls]
      rfl
    · rw [Context.activeLoop, hloops]
      rfl

/-- A machine inside a call and a loop. -/
def busyMachine : Machine :=
  { Session.start.machine with
    context := { calls := [⟨"f", .nowhere⟩], loops := ["loop_1"] } }

/-- A call of a name that stands for nothing. -/
def strayCall : Expr :=
  .call (.var ⟨"missing", .nowhere⟩) [] .nowhere

theorem busyMachine_disciplined :
    let cfg : Config := { file := "main" }
    busyMachine.context.depth ≤ cfg.settings.maxCallDepth ∧
    Disciplined cfg (fun ω _ => (Eval.stmt cfg 9 ⟨0, []⟩ (.expr strayCall) : Eval ω Flow))
      busyMachine ∧
    Disciplined cfg (fun ω _ => (Eval.expr cfg 9 ⟨0, []⟩ strayCall : Eval ω Value)) busyMachine ∧
    Disciplined cfg (fun ω _ => (Eval.inner cfg 9 ω).callValue cfg (.builtin .print) [.text "x"] none
      .nowhere) busyMachine ∧
    ∃ fault s, Session.start.run cfg 9 ⟨"main", [.expr strayCall]⟩ = some (.error fault, s) ∧
      s.context.depth = 0 ∧ s.context.activeLoop = none := by
  intro cfg
  have hdepth : busyMachine.context.depth ≤ cfg.settings.maxCallDepth := by decide
  obtain ⟨hstmt, hexpr, hcall, hsession⟩ := Eval.stack_discipline cfg 9
  refine ⟨hdepth, hstmt _ _ _ hdepth, hexpr _ _ _ hdepth, hcall _ _ _ _ _ hdepth, ?_⟩
  have hfails :
      (Session.start.run cfg 9 ⟨"main", [.expr strayCall]⟩).map (·.1.isOk) = some false := by
    decide +kernel
  obtain ⟨⟨result, s⟩, hrun, hresult⟩ := Option.map_eq_some_iff.1 hfails
  cases result with
  | ok v => cases hresult
  | error fault => exact ⟨fault, s, hrun, hsession s (.run .start trivial hrun)⟩

end Sable
