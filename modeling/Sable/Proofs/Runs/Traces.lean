import Sable.Proofs.Runs.Sessions

/-!
# The trace of a failure

`ShowsCalls`: what the lines of a trace say of the calls in progress. `Session.run_reported`: the fault
that a run ends with was raised at one moment of its history.
-/

namespace Sable

/-- The lines tell of calls in progress: one for each of the innermost that may be shown, in order,
with the place it was made from, and a last one with the number of those left out, if there are any. -/
structure ShowsCalls (cfg : Config) (calls : List Frame) (lines : List String) : Prop where
  length : lines.length = min calls.length cfg.settings.maxStackFrames +
    if cfg.settings.maxStackFrames < calls.length then 1 else 0
  shown : ∀ i frame, i < cfg.settings.maxStackFrames → calls[i]? = some frame →
    lines[i]? = some s!"    at {frame.function} ({cfg.file}:{frame.span.start.text})"
  omitted : cfg.settings.maxStackFrames < calls.length → lines[cfg.settings.maxStackFrames]? =
    some s!"    … {calls.length - cfg.settings.maxStackFrames} more frames"

theorem Context.traceLines_shows (cfg : Config) (c : Context) :
    ShowsCalls cfg c.calls (c.traceLines cfg) := by
  have hlength : ∀ f : Frame → String, ((c.calls.take cfg.settings.maxStackFrames).map f).length =
      min c.calls.length cfg.settings.maxStackFrames := by
    intro f
    rw [List.length_map, List.length_take, Nat.min_comm]
  unfold traceLines depth
  refine ⟨?_, fun i frame hi hframe => ?_, fun hmore => ?_⟩
  · dsimp only
    split <;> simp only [List.length_append, hlength, List.length_singleton, Nat.add_zero]
  · have hlt : i < c.calls.length := (List.getElem?_eq_some_iff.1 hframe).1
    have hline : ((c.calls.take cfg.settings.maxStackFrames).map fun f =>
        s!"    at {f.function} ({cfg.file}:{f.span.start.text})")[i]? =
          some s!"    at {frame.function} ({cfg.file}:{frame.span.start.text})" := by
      rw [List.getElem?_map, List.getElem?_take_of_lt hi, hframe]
      rfl
    dsimp only
    split
    · rw [List.getElem?_append_left (by rw [hlength]; omega)]
      exact hline
    · exact hline
  · dsimp only
    rw [if_pos hmore, List.getElem?_append_right (by rw [hlength]; omega), hlength]
    have hmin : min c.calls.length cfg.settings.maxStackFrames = cfg.settings.maxStackFrames := by
      omega
    rw [hmin, Nat.sub_self]
    rfl

/-- A trace is kept whenever a run fails. -/
theorem Eval.inRun_failed {ω α : Type} [Observer ω] {cfg : Config} {body : Eval ω α} {m m' : Machine}
    {w w' : ω} {fault : Fault} (h : Eval.inRun cfg body m w = .failed fault m' w') :
    m'.context.failure ≠ none := by
  simp only [Eval.inRun, Eval.bind, Eval.note, Eval.report, Eval.ending] at h
  split at h
  · cases h
  · cases h
    unfold Context.capture
    split
    · simp_all
    · exact Option.some_ne_none _
  · cases h

namespace Session

/-- The history of a run reports the fault that it ends with, and all observers are shown this
history. An earlier trace makes no difference, since a run clears it first. -/
theorem run_reported (s : Session) (cfg : Config) (fuel : Nat) (p : Program) :
    ∃ o, s.run cfg fuel p = s.after o ∧
      (∀ (ω : Type) [Observer ω] (w : ω),
        s.watch cfg fuel p w = (s.after o, (s.history cfg fuel p).foldl Observer.see w)) ∧
      Reported cfg (s.history cfg fuel p) o ∧
      ∀ fault m, o = .failed fault m () → m.context.failure ≠ none := by
  let m₀ : Machine := { s.machine with context := s.machine.context.clearFailure }
  have hnothing : CodeLaw.any.value .nothing := trivial
  have hbody : ∀ t ∈ p.body, CodeLaw.any.stmt t := fun _ _ => trivial
  obtain ⟨o, h, hc, -, -, hr⟩ :=
    (program_lawful cfg fuel s.globals hnothing hbody).inRun m₀ (CodeLaw.any_store _)
  -- the run from the session's own machine clears the trace and is then the same
  have hcourse : Course (fun _ _ => Eval.inRun cfg (Eval.program cfg fuel s.globals .nothing p.body))
      s.machine o h := fun ω _ w => hc ω w
  obtain ⟨hhistory, hrun, hwatch⟩ := watch_of_course hcourse
  rw [hhistory]
  refine ⟨o, hrun, hwatch, hr rfl, fun fault m ho => ?_⟩
  have hfailed := hcourse Unit ()
  rw [ho] at hfailed
  exact Eval.inRun_failed hfailed

/-- Whatever state a session is in: after a run that succeeds no trace is kept. If the run fails, its
fault came up at one moment of it and no other did, and the trace kept is that of the calls in
progress at that moment. None is kept before, and no other on the way out. -/
theorem failure_traced (s : Session) (cfg : Config) (fuel : Nat) (p : Program) :
    (∀ (ω : Type) [Observer ω] (w : ω),
      s.watch cfg fuel p w = (s.run cfg fuel p, (s.history cfg fuel p).foldl Observer.see w)) ∧
    (∀ v s', s.run cfg fuel p = some (.ok v, s') →
      s'.context.failure = none ∧ ∀ x ∈ s.history cfg fuel p, x.Sound) ∧
    ∀ fault s', s.run cfg fuel p = some (.error fault, s') →
      ∃ before x after, s.history cfg fuel p = before ++ x :: after ∧ x.event = .raised fault ∧
        Unfailing before ∧ x.machine.context.failure = none ∧ Unwinding cfg x after ∧
        ∃ lines, ShowsCalls cfg x.machine.context.calls lines ∧
          s'.context.failure = some ("\n".intercalate lines) := by
  obtain ⟨o, hrun, hwatch, hr, hkept⟩ := s.run_reported cfg fuel p
  rw [hrun]
  refine ⟨hwatch, fun v s' h => ?_, fun fault s' h => ?_⟩
  · cases hr with
    | done hh hm =>
      cases h
      exact ⟨hm, fun x hx => (hh x hx).1⟩
    | failed _ _ _ _ _ _ => cases h
    | exhausted _ => cases h
  · cases hr with
    | done _ _ => cases h
    | @failed fault m before after x heq hbefore hx hnone hafter hk =>
      cases h
      refine ⟨before, x, after, heq, hx, hbefore, hnone, hafter, x.machine.context.traceLines cfg,
        x.machine.context.traceLines_shows cfg, ?_⟩
      rcases hk with hk | hk
      · exact hk
      · exact absurd hk.1 (hkept fault m rfl)
    | exhausted _ => cases h

end Session

/-- Three calls inside one another, with an unknown name in the innermost. -/
def deepFailure : String :=
  "fn c() \x7b\n missing\n\x7d\nfn b() \x7b\n c()\n\x7d\nfn a() \x7b\n b()\n\x7d\na()"

/-- Two of the three calls are shown, and the trace is gone after the next run that succeeds. -/
theorem deepFailure_traced :
    let cfg : Config := { file := "main", settings := { maxStackFrames := 2 } }
    ∃ p q fault s' s'' v, Program.parse "main" deepFailure = .ok p ∧ Program.parse "main" "1" = .ok q ∧
      Session.start.run cfg 40 p = some (.error fault, s') ∧ s'.run cfg 40 q = some (.ok v, s'') ∧
      s'.context.failure = some "    at c (main:5:2)\n    at b (main:8:2)\n    … 1 more frames" ∧
      (∃ x ∈ Session.start.history cfg 40 p, x.event = .raised fault ∧
        ∃ lines, ShowsCalls cfg x.machine.context.calls lines ∧
          s'.context.failure = some ("\n".intercalate lines)) ∧
      s''.context.failure = none := by
  intro cfg
  have hrun : (Program.parse "main" deepFailure).toOption.any (fun p =>
      (Program.parse "main" "1").toOption.any fun q => (Session.start.run cfg 40 p).any fun r =>
        !r.1.isOk && r.2.context.failure ==
          some "    at c (main:5:2)\n    at b (main:8:2)\n    … 1 more frames" &&
        (r.2.run cfg 40 q).any (·.1.isOk)) = true := by decide +kernel
  obtain ⟨p, hp, hrun⟩ := exists_of_toOption_any hrun
  obtain ⟨q, hq, hrun⟩ := exists_of_toOption_any hrun
  obtain ⟨⟨result, s'⟩, hs', hrun⟩ := (Option.any_eq_true _ _).1 hrun
  simp only [Bool.and_eq_true, beq_iff_eq] at hrun
  obtain ⟨⟨herror, htext⟩, hrun⟩ := hrun
  obtain ⟨⟨result', s''⟩, hs'', hok'⟩ := (Option.any_eq_true _ _).1 hrun
  cases result with
  | ok _ => cases herror
  | error fault =>
    cases result' with
    | error _ => cases hok'
    | ok v =>
      obtain ⟨-, -, hfailed⟩ := Session.failure_traced Session.start cfg 40 p
      obtain ⟨-, hok, -⟩ := Session.failure_traced s' cfg 40 q
      obtain ⟨before, x, after, heq, hx, -, -, -, hlines⟩ := hfailed fault s' hs'
      have hmem : x ∈ Session.start.history cfg 40 p := by
        rw [heq]
        exact List.mem_append_right _ List.mem_cons_self
      exact ⟨p, q, fault, s', s'', v, hp, hq, hs', hs'', htext, ⟨x, hmem, hx, hlines⟩,
        (hok v s'' hs'').1⟩

end Sable
