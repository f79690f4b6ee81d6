import Sable.Proofs.Forms.Statements
import Sable.Proofs.Runs.Traces

/-!
# No run comes to a defensive branch

Programs that were read satisfy `CodeLaw.wellFormed`, and so does the store at every moment of a run
(`Moment.Regular`). So no fault with `Fault.isDefensive` comes up. `Store.SharesRules`: a function that
agrees with `Store.evalType` on the forms of well-formed annotations, and does anything with other
words, structs, contracts and aliases. It gives all annotations that are evaluated the same types.
-/

namespace Sable

/-! ### Annotations -/

/-- The function has the rules of `Store.evalType` for the words of primitive types, for names and for
generic types, unions, arrays and functions: what it gives them is the same if that is so for the
annotations inside. It may do anything with other words and with structs, contracts and aliases. -/
structure Store.SharesRules (s : Store) (env : Env) (subst : Subst)
    (eval : TypeExpr → Except Fault Ty) : Prop where
  primitive : ∀ type span, eval (.primitive type span) = .ok (.primitive type)
  named : ∀ name, eval (.named name) = s.evalType env subst (.named name)
  generic : ∀ name args, (∀ t ∈ args, eval t = s.evalType env subst t) →
    eval (.generic name args) = s.evalType env subst (.generic name args)
  union : ∀ members span, (∀ t ∈ members, eval t = s.evalType env subst t) →
    eval (.union members span) = s.evalType env subst (.union members span)
  array : ∀ element span, eval element = s.evalType env subst element →
    eval (.array element span) = s.evalType env subst (.array element span)
  function : ∀ params result span, (∀ t ∈ params, eval t = s.evalType env subst t) →
    (∀ t ∈ result, eval t = s.evalType env subst t) →
    eval (.function params result span) = s.evalType env subst (.function params result span)

theorem Store.evalType_primitive (s : Store) (env : Env) (subst : Subst) (type : Primitive)
    (span : Span) : s.evalType env subst (.primitive type span) = .ok (.primitive type) := by
  cases type <;> rfl

/-- Such a function evaluates a well-formed annotation as `Store.evalType` does. -/
theorem Store.SharesRules.eq_evalType {s : Store} {env : Env} {subst : Subst}
    {eval : TypeExpr → Except Fault Ty} (hf : s.SharesRules env subst eval) {e : TypeExpr}
    (h : e.Proper) : eval e = s.evalType env subst e := by
  induction h with
  | @word text span hword =>
    obtain ⟨type, htype⟩ := Option.isSome_iff_exists.1 hword
    obtain rfl : type.name = text := by simpa using List.find?_some htype
    rw [hf.primitive, evalType_primitive]
  | named name => exact hf.named name
  | generic _ _ hargs => exact hf.generic _ _ hargs
  | union _ _ hmembers => exact hf.union _ _ hmembers
  | array _ helement => exact hf.array _ _ helement
  | function _ _ hparams hresult => exact hf.function _ _ _ hparams hresult

/-! ### Runs -/

/-- The store satisfies `CodeLaw.wellFormed`, a fault that comes up is not defensive, and the
annotations that are evaluated are well-formed, so that every evaluator with the rules for their
forms gives the type that `Store.evalType` gives. -/
structure Moment.Regular (x : Moment) : Prop where
  store : x.machine.store.Lawful .wellFormed
  raised : ∀ fault, x.event = .raised fault → fault.isDefensive = false
  resolving : ∀ types, x.event = .resolving types → ∀ t ∈ types, t.Proper ∧
    ∀ (s : Store) env subst eval, s.SharesRules env subst eval → eval t = s.evalType env subst t

theorem Step.regular {cfg : Config} {m : Machine} {x : Moment} (h : Step .wellFormed cfg m x)
    (hm : m.store.Lawful .wellFormed) : x.Regular where
  store := h.lawful hm
  raised fault hx := by
    cases h with
    | raised hfault =>
      cases hx
      exact hfault CodeLaw.wellFormed_strict
    | _ => cases hx
  resolving types hx t ht := by
    cases h with
    | resolving hwritten =>
      cases hx
      have hproper : t.Proper := hwritten t ht
      exact ⟨hproper, fun s env subst eval hf => hf.eq_evalType hproper⟩
    | _ => cases hx

namespace Session

/-- If only programs that were read are run, the statements of each are well-formed, every moment of
a run is regular, and no run ends with a defensive fault. -/
theorem run_regular {s : Session} (hs : s.Reached Program.IsParsed) {p : Program} (hp : p.IsParsed) :
    (∀ t ∈ p.body, t.Proper) ∧
    ∀ (cfg : Config) (fuel : Nat),
      (∀ x ∈ s.history cfg fuel p, x.Regular) ∧
      ∀ fault s', s.run cfg fuel p = some (.error fault, s') → fault.isDefensive = false := by
  have hproper : ∀ p, Program.IsParsed p → ∀ t ∈ p.body, CodeLaw.wellFormed.stmt t :=
    fun p hp => hp.proper
  obtain ⟨hstore, -⟩ := hs.lawful hproper
  refine ⟨hp.proper, fun cfg fuel => ?_⟩
  obtain ⟨-, ⟨m', ht⟩, -⟩ := watch_lawful cfg fuel hstore (hproper p hp)
  have hmoments : ∀ x ∈ s.history cfg fuel p, x.Regular := by
    intro x hx
    obtain ⟨m, hm, hstep⟩ :=
      ht.forall_mem (I := fun m => m.store.Lawful .wellFormed) (fun h hm => h.lawful hm) hstore x hx
    exact hstep.regular hm
  refine ⟨hmoments, fun fault s' hrun => ?_⟩
  -- the fault that a run ends with has come up at one of its moments
  obtain ⟨o, ho, -, hreported, -⟩ := s.run_reported cfg fuel p
  rw [ho] at hrun
  cases hreported with
  | done | exhausted => cases hrun
  | @failed _ _ before after x hhistory _ hx =>
    cases hrun
    exact (hmoments x (by simp [hhistory])).raised fault hx

end Session

/-- Statements that no program has do come to these branches. -/
example :
    let void : Expr := .array [] .nowhere
    let stmts : List Stmt := [.expr (.assign void void), .expr (.member void false void .nowhere),
      .typeDecl ⟨"Word", .nowhere⟩ [] (.word "Word" .nowhere)]
    stmts.all (fun t => match Session.start.run { file := "main" } 5 ⟨"main", [t]⟩ with
      | some (.error fault, _) => fault.isDefensive
      | _ => false) = true := by decide +kernel

/-- A union, a variable, and a function that gives the variable a value. -/
def keepingWord : String :=
  "type Word = null | bool\nvar last = null\nfn keep(word) \x7b last = word \x7d"

/-- A later program with a union around the first one, a call of the function, and an assignment to a
member that fails, since the value has no meaning. -/
def keptWord : String :=
  "type Either = Word | string\nkeep(\x7b flag: true \x7d)\nlast.flag = absent"

/-- The types of a declaration of a union are looked up. -/
def Event.isUnionDecl : Event → Bool
  | .resolving [.union _ _] => true
  | _ => false

/-- Both are read, the first one succeeds, and the second one evaluates its union and fails. -/
def keptWordRuns (cfg : Config) : Bool :=
  match Program.parse "main" keepingWord, Program.parse "main" keptWord with
  | .ok p, .ok q =>
    match Session.start.run cfg 20 p with
    | some (.ok _, s) =>
      (match s.run cfg 20 q with
      | some (.error _, _) => true
      | _ => false) && (s.history cfg 20 q).any (·.event.isUnionDecl)
    | _ => false
  | _, _ => false

theorem keptWord_regular :
    let cfg : Config := { file := "main" }
    ∃ p q v s fault s', Program.parse "main" keepingWord = .ok p ∧
      Program.parse "main" keptWord = .ok q ∧ Session.start.run cfg 20 p = some (.ok v, s) ∧
      s.run cfg 20 q = some (.error fault, s') ∧ fault.isDefensive = false ∧
      (∃ x ∈ s.history cfg 20 q, ∃ t, x.event = .resolving [t] ∧ t.Proper) ∧
      ∀ x ∈ s.history cfg 20 q, x.Regular := by
  intro cfg
  have hrun : keptWordRuns cfg = true := by decide +kernel
  unfold keptWordRuns at hrun
  split at hrun
  · rename_i p q hp hq
    split at hrun
    · rename_i v s hs
      obtain ⟨hfails, hunion⟩ := Bool.and_eq_true_iff.1 hrun
      split at hfails
      · rename_i fault s' hfault
        have hreached : s.Reached Program.IsParsed := .run .start ⟨_, _, hp⟩ hs
        obtain ⟨hmoments, hregular⟩ := (Session.run_regular hreached ⟨_, _, hq⟩).2 cfg 20
        obtain ⟨x, hx, hdecl⟩ := List.any_eq_true.1 hunion
        refine ⟨p, q, v, s, fault, s', hp, hq, hs, hfault, hregular fault s' hfault, ?_, hmoments⟩
        unfold Event.isUnionDecl at hdecl
        split at hdecl
        · rename_i members span hevent
          exact ⟨x, hx, _, hevent, ((hmoments x hx).resolving _ hevent _ (by simp)).1⟩
        · cases hdecl
      · cases hfails
    · cases hrun
  · cases hrun

end Sable
