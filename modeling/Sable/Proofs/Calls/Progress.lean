import Sable.Proofs.Runs.Code

/-!
# Calls in progress

`callsAfter n h` counts the calls in progress after the moments of `h`. A call is in progress from its
beginning, before its arguments are bound, and on the stack only while its body runs. `Capped`: at most
one call in progress is not on the stack. This holds where no fallback makes a call (`CodeLaw.Plain`).
-/

namespace Sable

/-- Evaluating it calls no function: nothing is called in it, and no member is read, which a getter
might answer. -/
inductive Expr.Plain : Expr → Prop
  | var (name : Name) : Plain (.var name)
  | number (value : Number.Decimal) (span : Span) : Plain (.number value span)
  | text {template : String} {names : List String} {holes : List Expr} {span : Span}
      (h : ∀ e ∈ holes, Plain e) : Plain (.text template names holes span)
  | array {elements : List Expr} {span : Span} (h : ∀ e ∈ elements, Plain e) :
      Plain (.array elements span)
  | object {struct : Option Name} {typeArgs : List TypeExpr} {properties : List (Name × Option Expr)}
      {span : Span} (h : ∀ p ∈ properties, ∀ e ∈ p.2, Plain e) :
      Plain (.object struct typeArgs properties span)
  | unary {op : UnaryOp} {operand : Expr} {span : Span} (h : Plain operand) :
      Plain (.unary op operand span)
  | binary {op : BinaryOp} {left right : Expr} (hl : Plain left) (hr : Plain right) :
      Plain (.binary op left right)
  | assignVar {name : Name} {value : Expr} (hv : Plain value) : Plain (.assign (.var name) value)
  | assignField {object : Expr} {name : Name} {span : Span} {value : Expr} (ho : Plain object)
      (hv : Plain value) : Plain (.assign (.field object name span) value)
  | assignIndex {object key : Expr} {span : Span} {value : Expr} (ho : Plain object)
      (hk : Plain key) (hv : Plain value) : Plain (.assign (.index object key span) value)

/-- No fallback of a parameter makes a call. -/
def FunctionOf.PlainFallbacks {σ : Type} (f : FunctionOf σ) : Prop :=
  ∀ p ∈ f.params, ∀ e ∈ p.fallback, e.Plain

/-- No function that satisfies the law makes a call in a fallback. -/
def CodeLaw.Plain (law : CodeLaw) : Prop :=
  ∀ f : Function, law.function f → f.PlainFallbacks

/-- The calls in progress after an event, `n` being those before it. -/
def Event.tally (n : Nat) : Event → Nat
  | .called _ => n + 1
  | .returned _ => n - 1
  | _ => n

/-- The event is neither the beginning of a call, nor the end of one, nor the binding of its
arguments. -/
def Event.Calm : Event → Prop
  | .called _ | .bound _ | .returned _ => False
  | _ => True

/-- The calls in progress after the moments of `h`, `n` being those before them. -/
def callsAfter (n : Nat) (h : List Moment) : Nat :=
  h.foldl (fun n x => x.event.tally n) n

/-- At no moment is more than one call in progress that is not on the stack. -/
def Capped : Nat → List Moment → Prop
  | _, [] => True
  | n, x :: h => x.event.tally n ≤ x.machine.context.depth + 1 ∧ Capped (x.event.tally n) h

/-- The arguments of a call are bound, and there is no room for it on the stack. -/
def Moment.Refused (cfg : Config) (x : Moment) : Prop :=
  (∃ f, x.event = .bound f) ∧ cfg.settings.maxCallDepth ≤ x.machine.context.depth

/-- Whether the arguments of a call are bound. -/
def Event.isBound : Event → Bool
  | .bound _ => true
  | _ => false

theorem Event.isBound_iff {event : Event} : event.isBound = true ↔ ∃ f, event = .bound f := by
  cases event <;> simp [isBound]

instance (cfg : Config) (x : Moment) : Decidable (x.Refused cfg) :=
  decidable_of_iff (x.event.isBound = true ∧ cfg.settings.maxCallDepth ≤ x.machine.context.depth)
    (and_congr Event.isBound_iff Iff.rfl)

theorem Event.Calm.tally {event : Event} (h : event.Calm) (n : Nat) : event.tally n = n := by
  cases event with
  | called _ | bound _ | returned _ => exact h.elim
  | _ => rfl

theorem Event.Calm.not_refused {cfg : Config} {x : Moment} (h : x.event.Calm) : ¬ x.Refused cfg := by
  rintro ⟨⟨f, hf⟩, -⟩
  rw [hf] at h
  exact h

theorem callsAfter_append (n : Nat) (h h' : List Moment) :
    callsAfter n (h ++ h') = callsAfter (callsAfter n h) h' :=
  List.foldl_append

theorem capped_append {n : Nat} {h h' : List Moment} :
    Capped n (h ++ h') ↔ Capped n h ∧ Capped (callsAfter n h) h' := by
  induction h generalizing n with
  | nil => exact (iff_of_eq (true_and _)).symm
  | cons x h ih =>
    show _ ∧ Capped _ (h ++ h') ↔ (_ ∧ Capped _ h) ∧ _
    rw [ih, and_assoc]
    rfl

theorem callsAfter_calm {n : Nat} {h : List Moment} (hc : ∀ x ∈ h, x.event.Calm) :
    callsAfter n h = n := by
  induction h with
  | nil => rfl
  | cons x h ih =>
    show callsAfter (x.event.tally n) h = n
    rw [(hc x List.mem_cons_self).tally]
    exact ih fun y hy => hc y (List.mem_cons_of_mem _ hy)

theorem capped_calm {n d : Nat} {h : List Moment} (hn : n ≤ d + 1)
    (hc : ∀ x ∈ h, x.event.Calm ∧ x.machine.context.depth = d) : Capped n h := by
  induction h with
  | nil => trivial
  | cons x h ih =>
    obtain ⟨hcalm, hd⟩ := hc x List.mem_cons_self
    unfold Capped
    rw [hcalm.tally, hd]
    exact ⟨hn, ih fun y hy => hc y (List.mem_cons_of_mem _ hy)⟩

/-- With no more than `d` calls on the stack, there are never more than `d + 1` in progress. -/
theorem Capped.calls_le {n d : Nat} {h h' : List Moment} (hc : Capped n h) (hn : n ≤ d + 1)
    (hd : ∀ x ∈ h, x.machine.context.depth ≤ d) (hp : h' <+: h) : callsAfter n h' ≤ d + 1 := by
  induction h generalizing n h' with
  | nil =>
    rw [List.prefix_nil.1 hp]
    exact hn
  | cons x h ih =>
    cases h' with
    | nil => exact hn
    | cons y h' =>
      obtain ⟨rfl, hrest⟩ := List.cons_prefix_cons.1 hp
      have hx : y.event.tally n ≤ d + 1 := Nat.le_trans hc.1 (Nat.succ_le_succ (hd y List.mem_cons_self))
      show callsAfter (y.event.tally n) h' ≤ d + 1
      exact ih hc.2 hx (fun z hz => hd z (List.mem_cons_of_mem _ hz)) hrest

end Sable
