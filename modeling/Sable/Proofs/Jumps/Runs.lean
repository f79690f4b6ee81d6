import Sable.Proofs.Jumps.Reading
import Sable.Proofs.Runs.Sessions

/-!
# No jump leaves its function

`CodeLaw.bound`: every jump is bound to a loop around it in the same function. Under this law the body
of a function and the statements of a program end in `Flow.Regular`, without a jump.
-/

namespace Sable

/-- Code in which every jump is bound. -/
def CodeLaw.bound : CodeLaw where
  stmt s := ∃ loops, s.Bound loops
  function f := ∀ s ∈ f.body, s.Bound []
  part := by
    rintro s x ⟨loops, hs⟩ hx
    exact ⟨x.1 ++ loops, hs.part (Stmt.mem_parts_append hx loops)⟩
  declared := by
    rintro s f ⟨loops, hs⟩ hf t ht
    exact hs.body (Stmt.body_mem_bodies hf) ht
  body hf hs := ⟨[], hf _ hs⟩

/-- Read from a source. -/
def Program.IsParsed (p : Program) : Prop :=
  ∃ file source, Program.parse file source = .ok p

theorem Program.IsParsed.bound {p : Program} (h : p.IsParsed) : ∀ s ∈ p.body, s.Bound [] := by
  obtain ⟨file, source, hp⟩ := h
  obtain ⟨tokens, -, hread⟩ := Program.parse_eq_ok.1 hp
  obtain ⟨n, marks, hw, -⟩ := Program.written hread
  exact hw.bound

/-- A flow that ends code in the regular way. -/
def Flow.Regular (flow : Flow) : Prop :=
  ∃ v, flow = .normal v ∨ flow = .ret v

theorem Flow.From.regular {law : CodeLaw} {body : List Stmt} {flow : Flow} (h : flow.From law body)
    (hb : ∀ s ∈ body, s.Bound []) : flow.Regular := by
  cases flow with
  | normal v => exact ⟨v, .inl rfl⟩
  | ret v => exact ⟨v, .inr rfl⟩
  | leave id | skip id =>
    obtain ⟨s, hs, he⟩ := h
    exact absurd he ((hb s hs).not_escapes _)

/-- A jump that ends a statement comes from a jump inside it that no loop there takes. -/
theorem Eval.stmt_from {cfg : Config} {fuel : Nat} {env : Env} {s : Stmt} {m m' : Machine}
    {flow : Flow} (h : Eval.stmt cfg fuel env s m () = .done flow m' ()) : flow.From .any [s] := by
  obtain ⟨o, moments, hc, hend, -⟩ :=
    (lawful_inner .any cfg fuel).stmt env s trivial m (CodeLaw.any_store _)
  have ho : Eval.stmt cfg fuel env s m () = o := hc.outcome_eq
  rw [ho] at h
  cases h
  cases hend with
  | done _ _ hflow => exact hflow

/-- In every session of parsed programs, the bodies of functions end in the regular way whenever they
are run, and so do the statements of the programs. A jump that ends any statement is one inside it
that no loop with its number surrounds there. -/
theorem Session.jumps_confined :
    (∀ s, Session.Reached Program.IsParsed s → ∀ p, p.IsParsed → ∀ cfg fuel,
      (∀ (ω : Type) [Observer ω] (w : ω), s.watch cfg fuel p w =
        (s.run cfg fuel p, (s.history cfg fuel p).foldl Observer.see w)) ∧
      ∀ x ∈ s.history cfg fuel p, ∀ f flow, x.event = .finished f flow → flow.Regular) ∧
    (∀ p, Program.IsParsed p → ∀ s ∈ p.body, ∀ cfg fuel env m flow m',
      Eval.stmt cfg fuel env s m () = .done flow m' () → flow.Regular) ∧
    ∀ s cfg fuel env m flow m', Eval.stmt cfg fuel env s m () = .done flow m' () →
      ∀ id, flow.target? = some id → s.Escapes flow := by
  refine ⟨fun s hs p hp cfg fuel => ?_, fun p hp s hs cfg fuel env m flow m' h => ?_,
    fun s cfg fuel env m flow m' h id hid => ?_⟩
  · have hbound : ∀ p, Program.IsParsed p → ∀ t ∈ p.body, CodeLaw.bound.stmt t :=
      fun p hp t ht => ⟨[], hp.bound t ht⟩
    obtain ⟨hstore, -⟩ := hs.lawful hbound
    obtain ⟨hwatch, ⟨m', ht⟩, -⟩ := watch_lawful cfg fuel hstore (hbound p hp)
    refine ⟨hwatch, fun x hx f flow hevent => ?_⟩
    obtain ⟨m₀, -, hstep⟩ := ht.forall_mem (I := fun _ => True) (fun _ _ => trivial) trivial x hx
    -- a body is seen to end in one kind of step only
    cases hstep with
    | finished hf hflow =>
      cases hevent
      exact hflow.regular hf
    | _ => cases hevent
  · refine (Eval.stmt_from h).regular fun t ht => ?_
    rw [List.mem_singleton.1 ht]
    exact hp.bound s hs
  · have hfrom := Eval.stmt_from h
    cases flow with
    | normal v | ret v => cases hid
    | leave _ | skip _ =>
      obtain ⟨t, ht, he⟩ := hfrom
      rwa [List.mem_singleton.1 ht] at he

/-- A function with a loop that it leaves, and a call of it. -/
def leavingLoop : String :=
  "fn f() \x7b while true \x7b break \x7d \x7d\nf()"

/-- Whether the body of a function has just come to its end. -/
def Moment.isEnd (x : Moment) : Bool :=
  match x.event with
  | .finished _ _ => true
  | _ => false

/-- Whether there is a result. -/
def Outcome.isDone {ω α : Type} : Outcome ω α → Bool
  | .done _ _ _ => true
  | _ => false

theorem leavingLoop_confined :
    let cfg : Config := { file := "main" }
    (∃ p, Program.parse "main" leavingLoop = .ok p ∧
      (∃ x ∈ Session.start.history cfg 20 p, ∃ f flow, x.event = .finished f flow ∧ flow.Regular) ∧
      ∃ s ∈ p.body, ∃ flow m, Eval.stmt cfg 20 Session.start.globals s Session.start.machine () =
        .done flow m () ∧ flow.Regular) ∧
    (Stmt.leave 3 none .nowhere).Escapes (.leave 3) := by
  intro cfg
  obtain ⟨hbodies, hstmts, hjumps⟩ := Session.jumps_confined
  refine ⟨?_, hjumps (.leave 3 none .nowhere) cfg 1 ⟨0, []⟩ {} _ _ rfl 3 rfl⟩
  have hrun : (match Program.parse "main" leavingLoop with
      | .ok p => (Session.start.history cfg 20 p).any Moment.isEnd && p.body.any fun s =>
          (Eval.stmt cfg 20 Session.start.globals s Session.start.machine ()).isDone
      | .error _ => false) = true := by decide +kernel
  cases hp : Program.parse "main" leavingLoop with
  | error e => simp [hp] at hrun
  | ok p =>
    have hparsed : p.IsParsed := ⟨_, _, hp⟩
    simp only [hp, Bool.and_eq_true, List.any_eq_true] at hrun
    obtain ⟨⟨x, hx, hend⟩, s, hs, hdone⟩ := hrun
    refine ⟨p, rfl, ⟨x, hx, ?_⟩, s, hs, ?_⟩
    · obtain ⟨event, machine⟩ := x
      cases event with
      | finished f flow => exact ⟨f, flow, rfl, (hbodies _ .start p hparsed cfg 20).2 _ hx f flow rfl⟩
      | _ => cases hend
    · cases he : Eval.stmt cfg 20 Session.start.globals s Session.start.machine () with
      | done flow m _ => exact ⟨flow, m, rfl, hstmts p hparsed s hs _ _ _ _ _ _ he⟩
      | failed _ _ _ => simp [he, Outcome.isDone] at hdone
      | exhausted _ => simp [he, Outcome.isDone] at hdone

end Sable
