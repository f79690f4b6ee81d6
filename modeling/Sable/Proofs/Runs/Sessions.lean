import Sable.Proofs.Runs.Statements

/-!
# Sessions run lawfully

`Session.Reached P`: the sessions after runs of programs with `P`, and `Session.history`: the moments of
a run. If the statements of all programs with `P` satisfy a law, the store of a session reached is
lawful, and so is the store at every moment of a run in it (`Reached.lawful`, `Reached.moment_lawful`).
-/

namespace Sable

/-! ### Histories -/

/-- Keeps every moment, in order. -/
instance : Observer (List Moment) where
  see seen x := seen ++ [x]

theorem foldl_see (h seen : List Moment) : h.foldl Observer.see seen = seen ++ h := by
  induction h generalizing seen with
  | nil => simp
  | cons x h ih =>
    rw [List.foldl_cons, ih]
    show seen ++ [x] ++ h = _
    simp

namespace Outcome

variable {ω α : Type}

@[simp] theorem seen_seenBy (o : Outcome Unit α) (w : ω) : (o.seenBy w).seen = w := by
  cases o <;> rfl

@[simp] theorem seenBy_unit (o : Outcome Unit α) (w : Unit) : o.seenBy w = o := by
  cases o <;> rfl

end Outcome

/-- The moments that an evaluation started on `m` goes through. -/
def history {α : Type} (e : Action α) (m : Machine) : List Moment :=
  (e (List Moment) m []).seen

namespace Course

variable {α : Type} {e : Action α} {m : Machine} {o : Outcome Unit α} {h : List Moment}

theorem outcome_eq (hc : Course e m o h) : e Unit m () = o := by
  rw [hc Unit ()]
  exact Outcome.seenBy_unit o _

theorem history_eq (hc : Course e m o h) : history e m = h := by
  unfold history
  rw [hc (List Moment) [], Outcome.seen_seenBy, foldl_see]
  rfl

end Course

/-! ### Programs -/

theorem program_lawful {law : CodeLaw} (cfg : Config) (fuel : Nat) (env : Env) {last : Value}
    (hlast : law.value last) {stmts : List Stmt} (h : ∀ s ∈ stmts, law.stmt s) :
    Lawful law cfg (fun ω _ => (Eval.program cfg fuel env last stmts : Eval ω Value)) law.value := by
  induction stmts generalizing last with
  | nil => exact .pure hlast
  | cons s rest ih =>
    refine .bind ((lawful_inner law cfg fuel).stmt env s (h s List.mem_cons_self)) fun flow hflow => ?_
    cases flow with
    | normal v => exact ih hflow fun t ht => h t (List.mem_cons_of_mem _ ht)
    | ret v => exact .pure hflow
    | _ => exact .pure hlast

namespace Session

/-- The sessions in which programs with the given property have been run one after another. -/
inductive Reached (P : Program → Prop) : Session → Prop
  | start : Reached P start
  | run {s s' : Session} {cfg : Config} {fuel : Nat} {p : Program} {result : Except Fault Value}
      (hs : Reached P s) (hp : P p) (h : s.run cfg fuel p = some (result, s')) : Reached P s'

theorem Reached.mono {P Q : Program → Prop} (hPQ : ∀ p, P p → Q p) {s : Session} (h : Reached P s) :
    Reached Q s := by
  induction h with
  | start => exact .start
  | run _ hp hrun ih => exact .run ih (hPQ _ hp) hrun

/-- The moments that a session goes through in the run of a program. -/
def history (cfg : Config) (fuel : Nat) (s : Session) (p : Program) : List Moment :=
  (s.watch cfg fuel p ([] : List Moment)).2

variable {law : CodeLaw}

@[simp] theorem after_seenBy {ω : Type} (s : Session) (o : Outcome Unit Value) (w : ω) :
    s.after (o.seenBy w) = s.after o := by
  cases o <;> rfl

theorem machine?_of_after {s s' : Session} {o : Outcome Unit Value} {result : Except Fault Value}
    (h : s.after o = some (result, s')) : o.machine? = some s'.machine := by
  cases o <;> cases h <;> rfl

/-- The course that a run takes is what its observers are shown. -/
theorem watch_of_course {cfg : Config} {fuel : Nat} {s : Session} {p : Program}
    {o : Outcome Unit Value} {h : List Moment}
    (hc : Course (fun _ _ => Eval.inRun cfg (Eval.program cfg fuel s.globals .nothing p.body))
      s.machine o h) :
    s.history cfg fuel p = h ∧ s.run cfg fuel p = s.after o ∧
      ∀ (ω : Type) [Observer ω] (w : ω),
        s.watch cfg fuel p w = (s.after o, h.foldl Observer.see w) := by
  have hwatch : ∀ (ω : Type) [Observer ω] (w : ω),
      s.watch cfg fuel p w = (s.after o, h.foldl Observer.see w) := by
    intro ω _ w
    have ho : Eval.inRun cfg (Eval.program cfg fuel s.globals .nothing p.body) s.machine w =
        o.seenBy (h.foldl Observer.see w) := hc ω w
    simp only [watch, ho, after_seenBy, Outcome.seen_seenBy]
  refine ⟨?_, congrArg Prod.fst (hwatch Unit ()), hwatch⟩
  rw [history, hwatch, foldl_see]
  rfl

/-- The outcome of a run in a lawful session, through the history that all observers are shown. -/
theorem run_course (cfg : Config) (fuel : Nat) {s : Session} (hs : s.store.Lawful law) {p : Program}
    (hp : ∀ t ∈ p.body, law.stmt t) :
    ∃ o, s.run cfg fuel p = s.after o ∧
      (∀ (ω : Type) [Observer ω] (w : ω),
        s.watch cfg fuel p w = (s.after o, (s.history cfg fuel p).foldl Observer.see w)) ∧
      Ends law cfg s.machine law.value (s.history cfg fuel p) o ∧
      Orderly law cfg false s.machine (s.history cfg fuel p) o := by
  have hnothing : law.value .nothing := trivial
  obtain ⟨o, h, hc, hend, ho, -⟩ :=
    (program_lawful cfg fuel s.globals hnothing hp).inRun s.machine hs
  obtain ⟨hhistory, hrun, hwatch⟩ := watch_of_course hc
  rw [hhistory]
  exact ⟨o, hrun, hwatch, hend, ho⟩

/-- The course of a run in a lawful session. -/
theorem watch_lawful (cfg : Config) (fuel : Nat) {s : Session} (hs : s.store.Lawful law) {p : Program}
    (hp : ∀ t ∈ p.body, law.stmt t) :
    (∀ (ω : Type) [Observer ω] (w : ω),
      s.watch cfg fuel p w = (s.run cfg fuel p, (s.history cfg fuel p).foldl Observer.see w)) ∧
    (∃ m', Trace law cfg s.machine (s.history cfg fuel p) m') ∧
    ∀ result s', s.run cfg fuel p = some (result, s') →
      Trace law cfg s.machine (s.history cfg fuel p) s'.machine ∧ s.machine.Level s'.machine := by
  obtain ⟨o, hrun, hwatch, hend, -⟩ := run_course cfg fuel hs hp
  rw [hrun]
  exact ⟨hwatch, hend.trace, fun result s' hr => hend.level (machine?_of_after hr)⟩

theorem start_lawful : start.store.Lawful law := by
  have hroot : (({} : Store).newRoot).2.Lawful law := Store.lawful_empty.newScope ⟨0, []⟩
  exact hroot.bootstrap _

/-- A session stays lawful, and no call or loop is left in progress. -/
theorem Reached.lawful {P : Program → Prop} (hP : ∀ p, P p → ∀ t ∈ p.body, law.stmt t) {s : Session}
    (h : Reached P s) : s.store.Lawful law ∧ s.context.calls = [] ∧ s.context.loops = [] := by
  induction h with
  | start => exact ⟨start_lawful, rfl, rfl⟩
  | run _ hp hrun ih =>
    obtain ⟨hstore, hcalls, hloops⟩ := ih
    obtain ⟨ht, hl⟩ := (watch_lawful _ _ hstore (hP _ hp)).2.2 _ _ hrun
    exact ⟨ht.lawful hstore, hl.1.trans hcalls, hl.2.trans hloops⟩

/-- The law holds at every moment of a session. -/
theorem Reached.moment_lawful {P : Program → Prop} (hP : ∀ p, P p → ∀ t ∈ p.body, law.stmt t)
    {s : Session} (hs : Reached P s) {p : Program} (hp : P p) {cfg : Config} {fuel : Nat} {x : Moment}
    (hx : x ∈ s.history cfg fuel p) : x.machine.store.Lawful law := by
  obtain ⟨hstore, -⟩ := hs.lawful hP
  obtain ⟨-, ⟨m', ht⟩, -⟩ := watch_lawful cfg fuel hstore (hP p hp)
  obtain ⟨m, hm, hstep⟩ :=
    ht.forall_mem (I := fun m => m.store.Lawful law) (fun h hm => h.lawful hm) hstore x hx
  exact hstep.lawful hm

end Session

end Sable
