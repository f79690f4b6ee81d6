import Sable.Proofs.Loops.Statements

/-!
# A loop with a condition alone is a while loop

A `for` loop with a condition and neither a first step nor an update makes one scope more than the
`while` loop, and nothing is declared in it. In a `Store.Closed` store their outcomes are related by
`Outcome.Twin`. All sessions are `Closed`.
-/

namespace Sable

/-! ### Closed stores -/

/-- The scopes are among the first `k`. -/
def Env.Within (k : Nat) (env : Env) : Prop :=
  ∀ a ∈ env.path, a < k

def Value.Within (k : Nat) : Value → Prop
  | .function f => f.env.Within k
  | _ => True

/-- All functions in the store have scopes that are there. -/
structure Store.Closed (s : Store) : Prop where
  vars : ∀ a, ∀ p ∈ (s.scope a).vars, p.2.value.Within s.scopes.size
  methods : ∀ a, ∀ p ∈ (s.scope a).methods, p.2.Within s.scopes.size
  getters : ∀ a, ∀ p ∈ (s.scope a).getters, p.2.Within s.scopes.size
  properties : ∀ a, ∀ p ∈ (s.object a).properties, p.2.Within s.scopes.size
  elements : ∀ a, ∀ v ∈ (s.array a).toList, v.Within s.scopes.size

section

variable {n k : Nat}

theorem Env.Within.twin {env : Env} (h : env.Within n) : env.Twin n n env :=
  ⟨(moved_of_lt (h _ List.mem_cons_self)).symm, Threads.of_lt h⟩

theorem Value.Within.twin {v : Value} (h : v.Within n) : v.Twin n n v := by
  cases v with
  | function f => exact .function (Threads.of_lt h)
  | _ => exact .same fun _ => nofun

theorem Value.Twin.within {v v' : Value} (h : v.Twin n k v') : v.Within k := by
  cases h with
  | function h => exact h.lt
  | same hne =>
    cases v with
    | function f => exact absurd rfl (hne f)
    | _ => trivial

theorem forall_of_forall₂ {α : Type} {R : α → α → Prop} {P : α → Prop} {l l' : List α}
    (h : List.Forall₂ R l l') (hP : ∀ a a', R a a' → P a) : ∀ a ∈ l, P a :=
  ((List.forall₂_and_left l l').1 (h.imp fun a a' ha => ⟨hP a a' ha, ha⟩)).1

namespace Store

variable {s s' : Store}

/-- A new scope that nothing is declared in is an idle one. -/
theorem Closed.twin (h : s.Closed) (env : Env) : s.Twin s.scopes.size (s.newScope env).2 where
  inside := Nat.le_refl _
  scopes := size_newScope
  idle := by rw [scope_newScope, scope_of_size_le (Nat.le_refl _)]
  scope a := by
    rw [scope_newScope]
    rcases Nat.lt_or_ge a s.scopes.size with hlt | hge
    · rw [moved_of_lt hlt]
      exact ⟨.of_forall fun p hp => ⟨(h.vars a p hp).twin, rfl, rfl⟩, rfl,
        .of_forall fun p hp => (h.methods a p hp).twin,
        .of_forall fun p hp => (h.getters a p hp).twin, rfl⟩
    · rw [moved_of_le hge, scope_of_size_le hge, scope_of_size_le (Nat.le_succ_of_le hge)]
      exact Scope.twin_empty
  objects := rfl
  object a := ⟨rfl, rfl, .of_forall fun p hp => (h.properties a p hp).twin⟩
  arrays := rfl
  array a := List.forall₂_same.2 fun v hv => (h.elements a v hv).twin

theorem Twin.closed (h : s.Twin n s') : s.Closed where
  vars a := forall_of_forall₂ (h.scope a).vars fun _ _ hp => hp.2.value.within
  methods a := forall_of_forall₂ (h.scope a).methods fun _ _ hp => hp.2.within
  getters a := forall_of_forall₂ (h.scope a).getters fun _ _ hp => hp.2.within
  properties a := forall_of_forall₂ (h.object a).properties fun _ _ hp => hp.2.within
  elements a := forall_of_forall₂ (h.array a) fun _ _ hv => hv.within

end Store

end

/-- The law of a store without functions. -/
def CodeLaw.noFunctions : CodeLaw where
  stmt _ := False
  function _ := False
  part h _ := h.elim
  declared h _ := h.elim
  body h _ := h.elim

theorem Store.Lawful.closed {s : Store} (h : s.Lawful .noFunctions) : s.Closed := by
  have hwithin {v : Value} {k : Nat} (hv : CodeLaw.noFunctions.value v) : v.Within k := by
    cases v with
    | function f => exact hv.elim
    | _ => trivial
  exact ⟨fun a p hp => hwithin ((h.scope a).vars p hp), fun a p hp => hwithin ((h.scope a).methods p hp),
    fun a p hp => hwithin ((h.scope a).getters p hp), fun a p hp => hwithin (h.object a p hp),
    fun a v hv => hwithin (h.array a v (Array.mem_toList_iff.1 hv))⟩

theorem Outcome.Twin.machine {ω ω' α β : Type} {n : Nat} {R : Nat → α → β → Prop} {o : Outcome ω α}
    {o' : Outcome ω' β} (h : o.Twin n R o') {m : Machine} (hm : o.machine? = some m) :
    ∃ m', m.Twin n m' := by
  cases h with
  | done htwin _ | failed htwin =>
    cases hm
    exact ⟨_, htwin⟩
  | exhausted => cases hm

/-- An evaluation that is paired with itself in a store with one more scope keeps the store closed,
since every function of a store that has a twin is closed. -/
theorem Pairs.closed {ω α : Type} {R : Nat → α → α → Prop} {e : Eval ω α} {m m' : Machine} {w : ω}
    (h : Pairs m.store.scopes.size m.store.scopes.size R e e) (hm : m.store.Closed)
    (hend : (e m w).machine? = some m') :
    m'.store.Closed ∧ m.store.scopes.size ≤ m'.store.scopes.size := by
  have htwin : m.Twin m.store.scopes.size ⟨(m.store.newScope default).2, m.context⟩ :=
    ⟨hm.twin default, rfl⟩
  obtain ⟨_, hm'⟩ := (h _ _ w w htwin (Nat.le_refl _)).machine hend
  exact ⟨hm'.store.closed, hm'.store.inside⟩

namespace Session

theorem globals_of_after {s s' : Session} {o : Outcome Unit Value} {result : Except Fault Value}
    (h : s.after o = some (result, s')) : s'.globals = s.globals := by
  cases o <;> cases h <;> rfl

/-- The functions of a session, and its programs, see scopes that are there. -/
structure Closed (s : Session) : Prop where
  store : s.store.Closed
  globals : s.globals.Within s.store.scopes.size

theorem start_closed : start.Closed where
  store := start_lawful.closed
  globals := by
    show ∀ a ∈ [0], a < 1
    decide

theorem run_closed {s s' : Session} {cfg : Config} {fuel : Nat} {p : Program}
    {result : Except Fault Value} (hs : s.Closed) (h : s.run cfg fuel p = some (result, s')) :
    s'.Closed := by
  have hprogram : Pairs s.store.scopes.size s.store.scopes.size (Value.Twin s.store.scopes.size)
      (Eval.inRun cfg (Eval.program cfg fuel s.globals .nothing p.body) : Eval Unit Value)
      (Eval.inRun cfg (Eval.program cfg fuel s.globals .nothing p.body) : Eval Unit Value) :=
    .inRun cfg (program_pairs cfg fuel hs.globals.twin .nothing p.body) fun _ _ _ _ hij hv => hv.mono hij
  have hafter : s.after (Eval.inRun cfg (Eval.program cfg fuel s.globals .nothing p.body) s.machine ()) =
      some (result, s') := h
  obtain ⟨hclosed, hgrown⟩ := Pairs.closed (m := s.machine) hprogram hs.store (machine?_of_after hafter)
  refine ⟨hclosed, fun a ha => ?_⟩
  rw [globals_of_after hafter] at ha
  exact Nat.lt_of_lt_of_le (hs.globals a ha) hgrown

/-- All sessions that programs lead to are closed. -/
theorem Reached.closed {P : Program → Prop} {s : Session} (h : s.Reached P) : s.Closed := by
  induction h with
  | start => exact start_closed
  | run _ _ hrun ih => exact run_closed ih hrun

end Session

/-! ### The two loops -/

/-- A loop with a condition and nothing else ends as a `while` loop with the same condition and the
same body does, for any fuel: neither comes to an end, or both fail with the same fault, or both end
with the same flow. They leave the same output, stacks and trace, and the same bindings and heap but
for one scope more. -/
theorem Eval.stmt_whileLoop_forLoop (cfg : Config) (fuel : Nat) {env : Env} {m : Machine}
    (hm : m.store.Closed) (henv : env.Within m.store.scopes.size) (id : Nat) (label : Option Name)
    (condition : Expr) (body : List Stmt) {ω : Type} [Observer ω] (w : ω) :
    Outcome.Twin m.store.scopes.size (Flow.Twin m.store.scopes.size)
      (Eval.stmt cfg fuel env (.whileLoop id condition body) m w)
      (Eval.stmt cfg fuel env (.forLoop id label none (some condition) none body) m w) := by
  cases fuel with
  | zero => exact .exhausted
  | succ fuel =>
    have hinner : PairedInner m.store.scopes.size (Eval.inner cfg fuel ω) (Eval.inner cfg fuel ω) :=
      paired_inner _ cfg fuel
    have hsees : env.Sees m.store.scopes.size m.store.scopes.size (m.store.newScope env).1 :=
      .idle (Threads.of_lt henv)
    have hloops : Pairs m.store.scopes.size m.store.scopes.size (Flow.Twin m.store.scopes.size)
        ((Eval.inner cfg fuel ω).whileLoop fuel env id condition body)
        (Eval.inLoop (loopName id) (Eval.loop id
          ((Eval.inner cfg fuel ω).test? (m.store.newScope env).1 (some condition))
          ((Eval.inner cfg fuel ω).block (m.store.newScope env).1 body)
          ((Eval.inner cfg fuel ω).update? (m.store.newScope env).1 none) fuel)) :=
      .inLoop _ (loop_pairs id (hinner.test hsees condition) (hinner.block hsees body) (.same ()) fuel)
        fun _ _ _ _ hij h => h.mono hij
    have htwin : m.Twin m.store.scopes.size ⟨(m.store.newScope env).2, m.context⟩ :=
      ⟨hm.twin env, rfl⟩
    exact (hloops m _ w (Observer.see w ⟨.changed, ⟨(m.store.newScope env).2, m.context⟩⟩) htwin
      (Nat.le_refl _)).imp fun _ _ _ hflow => hflow.2

/-- Two variables, and a function that gives one of them a value. -/
def noteProgram : String :=
  "var open = true\nvar seen = null\nfn note() \x7b seen = true \x7d"

/-- A loop with a function in its body, which sees the scopes around the loop. -/
def notingLoop : String :=
  "while open \x7b\n  fn peek() \x7b note() \x7d\n  peek()\n  break\n\x7d"

/-- The program succeeds, and then the loop comes to an end with three scopes of its own. -/
def notingLoopRuns (cfg : Config) : Bool :=
  match Program.parse "main" noteProgram, Program.parse "main" notingLoop with
  | .ok p, .ok q =>
    match Session.start.run cfg 20 p, q.body with
    | some (.ok _, s), [.whileLoop id condition body] =>
      match Eval.stmt cfg 20 s.globals (.whileLoop id condition body) s.machine () with
      | .done (.normal _) m _ => s.store.scopes.size = 1 ∧ m.store.scopes.size = 4
      | _ => false
    | _, _ => false
  | _, _ => false

theorem notingLoop_whileLoop_forLoop :
    let cfg : Config := { file := "main" }
    ∃ (s : Session) (id : Nat) (condition : Expr) (body : List Stmt) (v v' : Value) (m m' : Machine),
      s.store.Closed ∧ s.globals.Within s.store.scopes.size ∧
      Eval.stmt cfg 20 s.globals (.whileLoop id condition body) s.machine () = .done (.normal v) m () ∧
      Eval.stmt cfg 20 s.globals (.forLoop id none none (some condition) none body) s.machine () =
        .done (.normal v') m' () ∧
      v.Twin 1 4 v' ∧ m.Twin 1 m' ∧ m'.store.scopes.size = 5 := by
  intro cfg
  have hrun : notingLoopRuns cfg = true := by decide +kernel
  unfold notingLoopRuns at hrun
  split at hrun
  · split at hrun
    · rename_i s id condition body hs hbody
      have hreached : s.Reached fun _ => True := .run .start trivial hs
      have hstore := hreached.closed.store
      have hglobals := hreached.closed.globals
      have htwin := Eval.stmt_whileLoop_forLoop cfg 20 hstore hglobals id none condition body ()
      split at hrun
      · rename_i v m w hwhile
        obtain ⟨hsize, hsize'⟩ := of_decide_eq_true hrun
        have hsize : s.machine.store.scopes.size = 1 := hsize
        rw [hwhile, hsize] at htwin
        generalize hfor : Eval.stmt cfg 20 s.globals (.forLoop id none none (some condition) none body)
          s.machine () = o at htwin
        cases htwin with
        | done hm hflow =>
          rw [hsize'] at hflow
          cases hflow with
          | normal hv =>
            refine ⟨s, id, condition, body, _, _, _, _, hstore, hglobals, hwhile, hfor, hv, hm, ?_⟩
            rw [hm.store.scopes, hsize']
      · cases hrun
    · cases hrun
  · cases hrun

end Sable
