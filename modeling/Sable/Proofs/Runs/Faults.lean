import Sable.Proofs.Runs.Code

/-!
# Faults and the trace kept of them

`Reported`: an evaluation that fails raises its fault at exactly one moment, with `Unfailing` moments
before and `Unwinding` ones after it. The trace is taken by the first call or run that the fault passes,
and shows the calls of the moment at which it was raised (`Kept`).
-/

namespace Sable

/-- A trace shows nothing but the calls in progress. -/
theorem Context.trace_congr {cfg : Config} {c c' : Context} (h : c'.calls = c.calls) :
    c'.trace cfg = c.trace cfg := by
  unfold trace traceLines depth
  rw [h]

/-- A moment at which no fault comes up. -/
def Moment.Sound (x : Moment) : Prop :=
  ∀ fault, x.event ≠ .raised fault

/-- No fault comes up in the moments, and no trace is kept. -/
def Unfailing (h : List Moment) : Prop :=
  ∀ x ∈ h, x.Sound ∧ x.machine.context.failure = none

/-- No fault comes up in the moments, and no trace is kept but that of the calls in progress at `x`. -/
def Unwinding (cfg : Config) (x : Moment) (h : List Moment) : Prop :=
  ∀ y ∈ h, y.Sound ∧ (y.machine.context.failure = none ∨
    y.machine.context.failure = some (x.machine.context.trace cfg))

/-- The trace of the calls in progress at `x` is kept, or it can still be taken. -/
def Kept (cfg : Config) (x : Moment) (m : Machine) : Prop :=
  m.context.failure = some (x.machine.context.trace cfg) ∨
    m.context.failure = none ∧ m.context.calls = x.machine.context.calls

/-- The moments of `h`, before which no trace is kept, tell of the fault that the outcome is, if it is
one: there is one moment at which it comes up, and the trace of the calls at that moment is kept or can
still be taken. -/
inductive Reported {α : Type} (cfg : Config) (h : List Moment) : Outcome Unit α → Prop
  | done {a : α} {m : Machine} (hh : Unfailing h) (hm : m.context.failure = none) :
      Reported cfg h (.done a m ())
  | failed {fault : Fault} {m : Machine} {before after : List Moment} {x : Moment}
      (heq : h = before ++ x :: after) (hbefore : Unfailing before) (hx : x.event = .raised fault)
      (hnone : x.machine.context.failure = none) (hafter : Unwinding cfg x after)
      (hkept : Kept cfg x m) : Reported cfg h (.failed fault m ())
  | exhausted (hh : Unfailing h) : Reported cfg h (.exhausted ())

section

variable {cfg : Config} {x : Moment} {m m' : Machine} {h h' : List Moment}

theorem Unfailing.nil : Unfailing [] :=
  fun _ hx => absurd hx List.not_mem_nil

theorem Unfailing.single (hx : x.Sound) (hn : x.machine.context.failure = none) : Unfailing [x] := by
  intro y hy
  rw [List.mem_singleton.1 hy]
  exact ⟨hx, hn⟩

theorem Unfailing.append (hh : Unfailing h) (hh' : Unfailing h') : Unfailing (h ++ h') := by
  intro x hx
  rcases List.mem_append.1 hx with hx | hx
  · exact hh x hx
  · exact hh' x hx

theorem Unwinding.nil : Unwinding cfg x [] :=
  fun _ hy => absurd hy List.not_mem_nil

theorem Unwinding.append (hh : Unwinding cfg x h) (hh' : Unwinding cfg x h') :
    Unwinding cfg x (h ++ h') := by
  intro y hy
  rcases List.mem_append.1 hy with hy | hy
  · exact hh y hy
  · exact hh' y hy

theorem Unwinding.single {y : Moment} (hy : y.Sound) (hk : Kept cfg x y.machine) :
    Unwinding cfg x [y] := by
  intro z hz
  rw [List.mem_singleton.1 hz]
  exact ⟨hy, hk.elim .inr fun hk => .inl hk.1⟩

namespace Kept

/-- A change of the context that keeps the calls and the trace. -/
theorem of_eq (hk : Kept cfg x m) (hf : m'.context.failure = m.context.failure)
    (hc : m'.context.calls = m.context.calls) : Kept cfg x m' := by
  unfold Kept
  rw [hf, hc]
  exact hk

theorem capture (hk : Kept cfg x m) :
    (m.context.capture cfg).failure = some (x.machine.context.trace cfg) := by
  unfold Context.capture
  rcases hk with hk | ⟨hnone, hcalls⟩
  · rw [hk]
    exact hk
  · rw [hnone]
    exact congrArg some (Context.trace_congr hcalls)

end Kept

namespace Reported

variable {α β : Type}

/-- Moments before, in which no fault comes up, leave the report as it is. -/
theorem prepend {o : Outcome Unit α} (hh : Unfailing h) (hr : Reported cfg h' o) :
    Reported cfg (h ++ h') o := by
  cases hr with
  | done hh' hm => exact .done (hh.append hh') hm
  | @failed fault m before after x heq hbefore hx hnone hafter hkept =>
    have heq' : h ++ h' = h ++ before ++ x :: after := by rw [heq, List.append_assoc]
    exact .failed heq' (hh.append hbefore) hx hnone hafter hkept
  | exhausted hh' => exact .exhausted (hh.append hh')

/-- A fault that has come up is still reported after moments that keep its trace. -/
theorem settle {fault : Fault} (hr : Reported cfg h (.failed fault m () : Outcome Unit α))
    (hout : ∀ x, Kept cfg x m → Unwinding cfg x h' ∧ Kept cfg x m') :
    Reported cfg (h ++ h') (.failed fault m' () : Outcome Unit β) := by
  cases hr with
  | @failed _ _ before after x heq hbefore hx hnone hafter hkept =>
    obtain ⟨hmore, hkept'⟩ := hout x hkept
    have heq' : h ++ h' = before ++ x :: (after ++ h') := by
      rw [heq, List.append_assoc, List.cons_append]
    exact .failed heq' hbefore hx hnone (hafter.append hmore) hkept'

theorem fault {fault : Fault} (hr : Reported cfg h (.failed fault m () : Outcome Unit α)) :
    Reported cfg h (.failed fault m () : Outcome Unit β) := by
  have hsame : Reported cfg (h ++ []) (.failed fault m () : Outcome Unit β) :=
    hr.settle fun _ hk => ⟨.nil, hk⟩
  rwa [List.append_nil] at hsame

theorem unfailing {a : α} (hr : Reported cfg h (.done a m ())) :
    Unfailing h ∧ m.context.failure = none := by
  cases hr with
  | done hh hm => exact ⟨hh, hm⟩

theorem endless (hr : Reported cfg h (.exhausted () : Outcome Unit α)) : Unfailing h := by
  cases hr with
  | exhausted hh => exact hh

/-- A fault comes up at once. -/
theorem single {fault : Fault} (hn : m.context.failure = none) :
    Reported cfg [⟨.raised fault, m⟩] (.failed fault m () : Outcome Unit α) := by
  have heq : [⟨.raised fault, m⟩] = [] ++ (⟨.raised fault, m⟩ : Moment) :: [] := rfl
  exact .failed heq .nil rfl hn .nil (.inr ⟨hn, rfl⟩)

end Reported

end

end Sable
