import Sable.Proofs.Calls.Progress
import Sable.Proofs.Runs.Faults

/-!
# The course of an evaluation

`Course`: an evaluation goes through the same moments to the same outcome under every observer. `Step`
says what can happen at a moment, and a `Trace` is a sequence of steps. `Lawful`: from a lawful machine
an evaluation makes lawful steps, leaves the stacks of calls and loops as they were (`Ends`), makes its
calls as `Orderly` says, and is `Reported`.
-/

namespace Sable

/-- An evaluation for every type of observers. -/
abbrev Action (α : Type) : Type 1 :=
  ∀ (ω : Type) [Observer ω], Eval ω α

/-- The outcome for an observer that has seen `w` by then. -/
def Outcome.seenBy {ω α : Type} (o : Outcome Unit α) (w : ω) : Outcome ω α :=
  match o with
  | .done a m _ => .done a m w
  | .failed fault m _ => .failed fault m w
  | .exhausted _ => .exhausted w

/-- The machine at the end, if there is an end. -/
def Outcome.machine? {ω α : Type} : Outcome ω α → Option Machine
  | .done _ m _ | .failed _ m _ => some m
  | .exhausted _ => none

/-- From `m` the action comes to the outcome `o` through the moments of `h`, for every observer. -/
def Course {α : Type} (e : Action α) (m : Machine) (o : Outcome Unit α) (h : List Moment) : Prop :=
  ∀ (ω : Type) [Observer ω] (w : ω), e ω m w = o.seenBy (h.foldl Observer.see w)

namespace Course

variable {α β : Type} {e : Action α} {f : ∀ (ω : Type) [Observer ω], α → Eval ω β} {m m' : Machine}
  {h h' : List Moment}

theorem bind {a : α} {o : Outcome Unit β} (hc : Course e m (.done a m' ()) h)
    (hc' : Course (fun ω _ => f ω a) m' o h') : Course (fun ω _ => e ω >>= f ω) m o (h ++ h') := by
  intro ω _ w
  show Eval.bind (e ω) (f ω) m w = _
  rw [List.foldl_append, Eval.bind, hc ω w]
  exact hc' ω _

theorem bind_failed {fault : Fault} (hc : Course e m (.failed fault m' ()) h) :
    Course (fun ω _ => e ω >>= f ω) m (.failed fault m' ()) h := by
  intro ω _ w
  show Eval.bind (e ω) (f ω) m w = _
  rw [Eval.bind, hc ω w]
  rfl

theorem bind_exhausted (hc : Course e m (.exhausted ()) h) :
    Course (fun ω _ => e ω >>= f ω) m (.exhausted ()) h := by
  intro ω _ w
  show Eval.bind (e ω) (f ω) m w = _
  rw [Eval.bind, hc ω w]
  rfl

end Course

/-- How statements may end: with a lawful value, or with a jump that leads out of one of them. -/
def Flow.From (law : CodeLaw) (body : List Stmt) : Flow → Prop
  | .normal v | .ret v => law.value v
  | .leave id => ∃ s ∈ body, s.Escapes (.leave id)
  | .skip id => ∃ s ∈ body, s.Escapes (.skip id)

theorem Flow.From.subset {law : CodeLaw} {body body' : List Stmt} {flow : Flow}
    (h : flow.From law body) (hsub : body ⊆ body') : flow.From law body' := by
  cases flow with
  | normal v | ret v => exact h
  | leave id | skip id =>
    obtain ⟨s, hs, he⟩ := h
    exact ⟨s, hsub hs, he⟩

theorem Flow.From.result {law : CodeLaw} {body : List Stmt} {flow : Flow} (h : flow.From law body) :
    law.value flow.result := by
  cases flow with
  | ret v => exact h
  | _ => trivial

/-- One step of an evaluation under the law, from the machine `m` to the next moment that an
observer is shown. -/
inductive Step (law : CodeLaw) (cfg : Config) (m : Machine) : Moment → Prop
  | store {s : Store} (h : Change law m.store .changed s) :
      Step law cfg m ⟨.changed, { m with store := s }⟩
  | made {object : Value} {params : List Bound} {members : List Member} {s : Store}
      (h : Change law m.store (.made object params members) s) :
      Step law cfg m ⟨.made object params members, { m with store := s }⟩
  | wrote {env : Env} {address : Nat} {field : String} {v : Value} {s : Store}
      (h : Change law m.store (.wrote env address field v) s) :
      Step law cfg m ⟨.wrote env address field v, { m with store := s }⟩
  | raised {fault : Fault} (h : law.Strict → fault.isDefensive = false) :
      Step law cfg m ⟨.raised fault, m⟩
  | resolving {types : List TypeExpr} (h : ∀ t ∈ types, law.written t) :
      Step law cfg m ⟨.resolving types, m⟩
  | print (lines : List String) :
      Step law cfg m ⟨.changed, { m with context := lines.foldl Context.write m.context }⟩
  | clock : Step law cfg m ⟨.changed, { m with context := m.context.countReading }⟩
  | call {frame : Frame} {context : Context} (hsite : law.site frame.span)
      (h : m.context.push cfg frame = .ok context) : Step law cfg m ⟨.changed, { m with context }⟩
  | back : Step law cfg m ⟨.changed, { m with context := m.context.pop }⟩
  | unwind : Step law cfg m ⟨.changed, { m with context := (m.context.capture cfg).pop }⟩
  | enterLoop (name : String) :
      Step law cfg m ⟨.changed, { m with context := m.context.enterLoop name }⟩
  | exitLoop : Step law cfg m ⟨.changed, { m with context := m.context.exitLoop }⟩
  | clear : Step law cfg m ⟨.changed, { m with context := m.context.clearFailure }⟩
  | capture : Step law cfg m ⟨.changed, { m with context := m.context.capture cfg }⟩
  | called (f : Function) : Step law cfg m ⟨.called f, m⟩
  | bound (f : Function) : Step law cfg m ⟨.bound f, m⟩
  | returned (f : Function) : Step law cfg m ⟨.returned f, m⟩
  | finished {f : Function} {flow : Flow} (hf : law.function f) (h : flow.From law f.body) :
      Step law cfg m ⟨.finished f flow, m⟩

/-- Moments that follow one another from `m` on, up to the machine at the end. -/
inductive Trace (law : CodeLaw) (cfg : Config) : Machine → List Moment → Machine → Prop
  | nil {m : Machine} : Trace law cfg m [] m
  | cons {m m' : Machine} {x : Moment} {h : List Moment} (hx : Step law cfg m x)
      (ht : Trace law cfg x.machine h m') : Trace law cfg m (x :: h) m'

namespace Context

@[simp] theorem calls_capture (cfg : Config) (c : Context) : (c.capture cfg).calls = c.calls := by
  unfold capture
  split <;> rfl

@[simp] theorem loops_capture (cfg : Config) (c : Context) : (c.capture cfg).loops = c.loops := by
  unfold capture
  split <;> rfl

@[simp] theorem calls_foldl_write (lines : List String) (c : Context) :
    (lines.foldl write c).calls = c.calls := by
  induction lines generalizing c with
  | nil => rfl
  | cons line lines ih => exact ih _

@[simp] theorem loops_foldl_write (lines : List String) (c : Context) :
    (lines.foldl write c).loops = c.loops := by
  induction lines generalizing c with
  | nil => rfl
  | cons line lines ih => exact ih _

@[simp] theorem failure_foldl_write (lines : List String) (c : Context) :
    (lines.foldl write c).failure = c.failure := by
  induction lines generalizing c with
  | nil => rfl
  | cons line lines ih => exact ih _

theorem push_eq_ok {cfg : Config} {c c' : Context} {frame : Frame} (h : c.push cfg frame = .ok c') :
    c.depth < cfg.settings.maxCallDepth ∧ c' = { c with calls := frame :: c.calls } := by
  unfold push at h
  split at h
  · cases h
  · rename_i hlt
    cases h
    exact ⟨Nat.lt_of_not_le hlt, rfl⟩

theorem push_eq_error {cfg : Config} {c : Context} {frame : Frame} {fault : Fault}
    (h : c.push cfg frame = .error fault) : fault = .callDepth cfg.settings.maxCallDepth := by
  unfold push at h
  split at h
  · cases h
    rfl
  · cases h

end Context

section

variable {law : CodeLaw} {cfg : Config}

theorem Step.lawful {m : Machine} {x : Moment} (h : Step law cfg m x) (hm : m.store.Lawful law) :
    x.machine.store.Lawful law := by
  cases h with
  | store h => exact h.lawful hm
  | made h => exact h.lawful hm
  | wrote h => exact h.lawful hm
  | _ => exact hm

/-- No step leads to more calls than may be. -/
theorem Step.depth_le {m : Machine} {x : Moment} (h : Step law cfg m x)
    (hm : m.context.depth ≤ cfg.settings.maxCallDepth) :
    x.machine.context.depth ≤ cfg.settings.maxCallDepth := by
  have htail : m.context.calls.tail.length ≤ cfg.settings.maxCallDepth := by
    have hlen := List.length_tail (l := m.context.calls)
    unfold Context.depth at hm
    omega
  cases h with
  | call _ h =>
    obtain ⟨hlt, rfl⟩ := Context.push_eq_ok h
    exact hlt
  | back => exact htail
  | unwind => simpa [Context.depth, Context.pop] using htail
  | print lines => simpa [Context.depth] using hm
  | capture => simpa [Context.depth] using hm
  | _ => exact hm

namespace Trace

variable {m m' m'' : Machine} {h h' : List Moment}

theorem single {x : Moment} (hx : Step law cfg m x) : Trace law cfg m [x] x.machine :=
  .cons hx .nil

theorem append (ht : Trace law cfg m h m') (ht' : Trace law cfg m' h' m'') :
    Trace law cfg m (h ++ h') m'' := by
  induction ht with
  | nil => exact ht'
  | cons hx _ ih => exact .cons hx (ih ht')

theorem lawful (ht : Trace law cfg m h m') (hm : m.store.Lawful law) : m'.store.Lawful law := by
  induction ht with
  | nil => exact hm
  | cons hx _ ih => exact ih (hx.lawful hm)

/-- Every moment comes by a step from a machine at which the invariant holds. -/
theorem forall_mem {I : Machine → Prop} (hI : ∀ {m x}, Step law cfg m x → I m → I x.machine)
    (ht : Trace law cfg m h m') (hm : I m) : ∀ x ∈ h, ∃ m₀, I m₀ ∧ Step law cfg m₀ x := by
  induction ht with
  | nil => simp
  | cons hx _ ih =>
    intro y hy
    rcases List.mem_cons.1 hy with rfl | hy
    · exact ⟨_, hm, hx⟩
    · exact ih (hI hx hm) y hy

theorem depth_le (ht : Trace law cfg m h m') (hm : m.context.depth ≤ cfg.settings.maxCallDepth) :
    ∀ x ∈ h, x.machine.context.depth ≤ cfg.settings.maxCallDepth := by
  intro x hx
  obtain ⟨m₀, hm₀, hstep⟩ := ht.forall_mem (fun hx hm => hx.depth_le hm) hm x hx
  exact hstep.depth_le hm₀

end Trace

/-! ### Lawful evaluations -/

/-- The stacks of calls and loops are the same. -/
def Machine.Level (m m' : Machine) : Prop :=
  m'.context.calls = m.context.calls ∧ m'.context.loops = m.context.loops

theorem Machine.Level.refl (m : Machine) : m.Level m :=
  ⟨rfl, rfl⟩

theorem Machine.Level.trans {m m' m'' : Machine} (h : m.Level m') (h' : m'.Level m'') :
    m.Level m'' :=
  ⟨h'.1.trans h.1, h'.2.trans h.2⟩

/-- An end that an evaluation from `m` may come to through the moments of `h`. -/
inductive Ends {α : Type} (law : CodeLaw) (cfg : Config) (m : Machine) (good : α → Prop)
    (h : List Moment) : Outcome Unit α → Prop
  | done {a : α} {m' : Machine} (ht : Trace law cfg m h m') (hl : m.Level m') (ha : good a) :
      Ends law cfg m good h (.done a m' ())
  | failed {fault : Fault} {m' : Machine} (ht : Trace law cfg m h m') (hl : m.Level m') :
      Ends law cfg m good h (.failed fault m' ())
  | exhausted {m' : Machine} (ht : Trace law cfg m h m') : Ends law cfg m good h (.exhausted ())

namespace Ends

variable {α : Type} {good : α → Prop} {m m' : Machine} {h : List Moment} {o : Outcome Unit α}

theorem trace (he : Ends law cfg m good h o) : ∃ m', Trace law cfg m h m' := by
  cases he with
  | done ht _ _ => exact ⟨_, ht⟩
  | failed ht _ => exact ⟨_, ht⟩
  | exhausted ht => exact ⟨_, ht⟩

theorem level (he : Ends law cfg m good h o) (hm : o.machine? = some m') :
    Trace law cfg m h m' ∧ m.Level m' := by
  cases he with
  | done ht hl _ =>
    cases hm
    exact ⟨ht, hl⟩
  | failed ht hl =>
    cases hm
    exact ⟨ht, hl⟩
  | exhausted ht => cases hm

end Ends

theorem Machine.Level.depth {m m' : Machine} (h : m.Level m') : m'.context.depth = m.context.depth := by
  unfold Context.depth
  rw [h.1]

/-! ### Calls and the limit of the stack -/

/-- How an evaluation from `m`, in which a call may be `waiting` for its place on the stack, makes its
calls in the moments of `h`. -/
structure Orderly {α : Type} (law : CodeLaw) (cfg : Config) (waiting : Bool) (m : Machine)
    (h : List Moment) (o : Outcome Unit α) : Prop where
  /-- All calls are over at the end. -/
  settled : o.machine?.isSome → ∀ n, callsAfter n h = n
  /-- With plain fallbacks, no call waits for its place while others are made. -/
  capped : law.Plain → ∀ n ≤ m.context.depth + waiting.toNat, Capped n h
  /-- A call for which there is no room puts an end to everything. -/
  refused : ∀ x ∈ h, x.Refused cfg →
    ∃ m', o = .failed (.callDepth cfg.settings.maxCallDepth) m' ()

namespace Orderly

variable {α β : Type} {w : Bool} {m m' : Machine} {h h' : List Moment}

theorem nil {o : Outcome Unit α} : Orderly law cfg w m [] o where
  settled _ _ := rfl
  capped _ _ _ := trivial
  refused _ hx := absurd hx List.not_mem_nil

/-- A moment that concerns no call. -/
theorem single {x : Moment} {o : Outcome Unit α} (hx : x.event.Calm) (hl : m.Level x.machine) :
    Orderly law cfg w m [x] o where
  settled _ n := hx.tally n
  capped _ n hn := by
    have hw := w.toNat_le
    have hd := hl.depth
    refine ⟨?_, trivial⟩
    rw [hx.tally]
    omega
  refused y hy hr := by
    rw [List.mem_singleton.1 hy] at hr
    exact absurd hr hx.not_refused

theorem append {a : α} {o : Outcome Unit β} (ho : Orderly law cfg w m h (.done a m' ()))
    (hl : m.Level m') (ho' : Orderly law cfg w m' h' o) : Orderly law cfg w m (h ++ h') o where
  settled hs n := by
    rw [callsAfter_append, ho.settled rfl, ho'.settled hs]
  capped hp n hn := by
    refine capped_append.2 ⟨ho.capped hp n hn, ?_⟩
    rw [ho.settled rfl]
    exact ho'.capped hp n (by rw [hl.depth]; exact hn)
  refused x hx hr := by
    rcases List.mem_append.1 hx with hx | hx
    · obtain ⟨_, heq⟩ := ho.refused x hx hr
      cases heq
    · exact ho'.refused x hx hr

theorem failed {fault : Fault} (ho : Orderly law cfg w m h (.failed fault m' () : Outcome Unit α)) :
    Orderly law cfg w m h (.failed fault m' () : Outcome Unit β) where
  settled _ := ho.settled rfl
  capped := ho.capped
  refused x hx hr := by
    obtain ⟨_, heq⟩ := ho.refused x hx hr
    cases heq
    exact ⟨_, rfl⟩

theorem exhausted (ho : Orderly law cfg w m h (.exhausted () : Outcome Unit α)) :
    Orderly law cfg w m h (.exhausted () : Outcome Unit β) where
  settled hs := by cases hs
  capped := ho.capped
  refused x hx hr := by
    obtain ⟨_, heq⟩ := ho.refused x hx hr
    cases heq

end Orderly

/-- The moments of `h` lead into a part of an evaluation that starts on `m'`, and those of `h'` out
of it again: a call that begins in `h` ends in `h'`, and there is room for it on the stack. -/
structure Encloses (cfg : Config) (waiting waiting' : Bool) (m m' : Machine) (h h' : List Moment) :
    Prop where
  settled : ∀ n, callsAfter (callsAfter n h) h' = n
  capped : ∀ n ≤ m.context.depth + waiting.toNat, Capped n h ∧
    callsAfter n h ≤ m'.context.depth + waiting'.toNat ∧ Capped (callsAfter n h) h'
  granted : ∀ x ∈ h ++ h', ¬ x.Refused cfg

namespace Encloses

variable {α : Type} {w w' : Bool} {m m' : Machine} {h₁ h h₂ : List Moment}

theorem capped_append (he : Encloses cfg w w' m m' h₁ h₂) {o : Outcome Unit α}
    (ho : Orderly law cfg w' m' h o) (hp : law.Plain) {n : Nat}
    (hn : n ≤ m.context.depth + w.toNat) : Capped n (h₁ ++ h) :=
  Sable.capped_append.2 ⟨(he.capped n hn).1, ho.capped hp _ (he.capped n hn).2.1⟩

theorem refused_append (he : Encloses cfg w w' m m' h₁ h₂) {o : Outcome Unit α}
    (ho : Orderly law cfg w' m' h o) {x : Moment} (hx : x ∈ h₁ ++ h ++ h₂) (hr : x.Refused cfg) :
    ∃ m', o = .failed (.callDepth cfg.settings.maxCallDepth) m' () := by
  have hin : x ∈ h := by
    refine Classical.byContradiction fun hout => he.granted x ?_ hr
    simp only [List.mem_append] at hx ⊢
    rcases hx with (hx | hx) | hx
    · exact .inl hx
    · exact absurd hx hout
    · exact .inr hx
  exact ho.refused x hin hr

theorem exhausted (he : Encloses cfg w w' m m' h₁ h₂)
    (ho : Orderly law cfg w' m' h (.exhausted () : Outcome Unit α)) :
    Orderly law cfg w m (h₁ ++ h) (.exhausted () : Outcome Unit α) where
  settled hs := by cases hs
  capped hp _ hn := he.capped_append ho hp hn
  refused _ hx hr := he.refused_append ho (List.mem_append_left _ hx) hr

theorem ended (he : Encloses cfg w w' m m' h₁ h₂) {o o' : Outcome Unit α}
    (ho : Orderly law cfg w' m' h o) (hs : o.machine?.isSome)
    (hsame : ∀ fault m', o = .failed fault m' () → ∃ m'', o' = .failed fault m'' ()) :
    Orderly law cfg w m (h₁ ++ h ++ h₂) o' where
  settled _ n := by
    rw [callsAfter_append, callsAfter_append, ho.settled hs, he.settled]
  capped hp n hn := by
    refine Sable.capped_append.2 ⟨he.capped_append ho hp hn, ?_⟩
    rw [callsAfter_append, ho.settled hs]
    exact (he.capped n hn).2.2
  refused _ hx hr := by
    obtain ⟨_, hfailed⟩ := he.refused_append ho hx hr
    exact hsame _ _ hfailed

/-- Nothing is called on the way in and out, and the stack stays as it is. -/
theorem of_calm (hd : m'.context.depth = m.context.depth)
    (hin : ∀ x ∈ h₁, x.event.Calm ∧ x.machine.context.depth = m.context.depth)
    (hout : ∀ x ∈ h₂, x.event.Calm ∧ x.machine.context.depth = m.context.depth) :
    Encloses cfg w w m m' h₁ h₂ := by
  have hw := w.toNat_le
  have hcalls₁ (n : Nat) : callsAfter n h₁ = n := callsAfter_calm fun x hx => (hin x hx).1
  have hcalls₂ (n : Nat) : callsAfter n h₂ = n := callsAfter_calm fun x hx => (hout x hx).1
  refine ⟨fun n => ?_, fun n hn => ?_, fun x hx => ?_⟩
  · rw [hcalls₁, hcalls₂]
  · rw [hcalls₁]
    have hn' : n ≤ m.context.depth + 1 := by omega
    exact ⟨capped_calm hn' hin, by omega, capped_calm hn' hout⟩
  · rcases List.mem_append.1 hx with hx | hx
    · exact (hin x hx).1.not_refused
    · exact (hout x hx).1.not_refused

/-- From the beginning of a call to its end. -/
theorem of_call {f : Function} (hl : m.Level m') :
    Encloses cfg false true m m [⟨.called f, m⟩] [⟨.returned f, m'⟩] where
  settled _ := rfl
  capped n hn := by
    have hd := hl.depth
    simp only [Capped, callsAfter, List.foldl_cons, List.foldl_nil, Event.tally,
      Bool.toNat_false, Bool.toNat_true, and_true] at hn ⊢
    omega
  granted x hx hr := by
    obtain ⟨⟨g, hg⟩, -⟩ := hr
    rcases List.mem_cons.1 hx with rfl | hx
    · cases hg
    · rw [List.mem_singleton.1 hx] at hg
      cases hg

/-- From the moment a call takes its place on the stack to the moment it leaves it. -/
theorem of_frame {f : Function} {m'' : Machine} (hroom : m.context.depth < cfg.settings.maxCallDepth)
    (hpush : m'.context.depth = m.context.depth + 1)
    (hpop : m''.context.depth = m.context.depth) :
    Encloses cfg true false m m' [⟨.bound f, m⟩, ⟨.changed, m'⟩] [⟨.changed, m''⟩] where
  settled _ := rfl
  capped n hn := by
    simp only [Capped, callsAfter, List.foldl_cons, List.foldl_nil, Event.tally,
      Bool.toNat_false, Bool.toNat_true, and_true] at hn ⊢
    omega
  granted x hx hr := by
    obtain ⟨⟨g, hg⟩, hfull⟩ := hr
    simp only [List.cons_append, List.nil_append, List.mem_cons, List.not_mem_nil, or_false] at hx
    rcases hx with rfl | rfl | rfl
    · exact absurd hroom (Nat.not_lt.2 hfull)
    · cases hg
    · cases hg

end Encloses

/-- From every machine whose store satisfies the law, the evaluation takes its course by steps of
the law (`Ends`) and leaves the stacks as they were, its calls are `Orderly`, its fault is
`Reported`, and its result is good if it gives one. In general no call is `waiting` for its place on
the stack when it starts. -/
def Lawful {α : Type} (law : CodeLaw) (cfg : Config) (e : Action α) (good : α → Prop)
    (waiting : Bool := false) : Prop :=
  ∀ m, m.store.Lawful law →
    ∃ o h, Course e m o h ∧ Ends law cfg m good h o ∧ Orderly law cfg waiting m h o ∧
      (m.context.failure = none → Reported cfg h o)

namespace Lawful

variable {α β : Type} {good : α → Prop} {good' : β → Prop} {w : Bool}

/-- A fault comes up at once. -/
theorem fails {e : Action α} {m : Machine} {fault : Fault}
    (hfault : law.Strict → fault.isDefensive = false)
    (he : ∀ (ω : Type) [Observer ω] (w : ω), e ω m w = Eval.raise fault m w) :
    ∃ o h, Course e m o h ∧ Ends law cfg m good h o ∧ Orderly law cfg w m h o ∧
      (m.context.failure = none → Reported cfg h o) :=
  ⟨.failed fault m (), [⟨.raised fault, m⟩], he, .failed (.single (.raised hfault)) (.refl m),
    .single trivial (.refl m), .single⟩

/-- An evaluation that takes no step, but that a fault may come up. -/
theorem still {e : Action α} (h : ∀ m, m.store.Lawful law →
    (∃ a, good a ∧ ∀ (ω : Type) [Observer ω] (w : ω), e ω m w = .done a m w) ∨
      ∃ fault, (law.Strict → fault.isDefensive = false) ∧
        ∀ (ω : Type) [Observer ω] (w : ω), e ω m w = Eval.raise fault m w) :
    Lawful law cfg e good w := by
  intro m hm
  rcases h m hm with ⟨a, ha, he⟩ | ⟨fault, hfault, he⟩
  · exact ⟨.done a m (), [], he, .done .nil (.refl m) ha, .nil, .done .nil⟩
  · exact fails hfault he

/-- An evaluation that takes a single step, or fails before it does. -/
theorem step {e : Action α} (h : ∀ m, m.store.Lawful law →
    (∃ a x, good a ∧ Step law cfg m x ∧ m.Level x.machine ∧ x.event.Calm ∧ x.Sound ∧
      x.machine.context.failure = m.context.failure ∧
      ∀ (ω : Type) [Observer ω] (w : ω), e ω m w = .done a x.machine (Observer.see w x)) ∨
      ∃ fault, (law.Strict → fault.isDefensive = false) ∧
        ∀ (ω : Type) [Observer ω] (w : ω), e ω m w = Eval.raise fault m w) :
    Lawful law cfg e good w := by
  intro m hm
  rcases h m hm with ⟨a, x, ha, hx, hl, hcalm, hsound, hsame, he⟩ | ⟨fault, hfault, he⟩
  · refine ⟨.done a x.machine (), [x], he, .done (.single hx) hl ha, .single hcalm hl, fun hnone => ?_⟩
    rw [← hsame] at hnone
    exact .done (.single hsound hnone) hnone
  · exact fails hfault he

/-- An evaluation that makes a single change to the store, or fails before it does. -/
theorem changing {e : Action α} (h : ∀ m, m.store.Lawful law →
    (∃ a s, good a ∧ Change law m.store .changed s ∧ ∀ (ω : Type) [Observer ω] (w : ω),
      e ω m w = .done a { m with store := s } (Observer.see w ⟨.changed, { m with store := s }⟩)) ∨
      ∃ fault, (law.Strict → fault.isDefensive = false) ∧
        ∀ (ω : Type) [Observer ω] (w : ω), e ω m w = Eval.raise fault m w) :
    Lawful law cfg e good w := by
  refine step fun m hm => ?_
  rcases h m hm with ⟨a, s, ha, hs, he⟩ | hfails
  · exact .inl ⟨a, _, ha, .store hs, .refl m, trivial, fun _ => nofun, rfl, he⟩
  · exact .inr hfails

theorem pure {a : α} (ha : good a) : Lawful law cfg (fun ω _ => (Pure.pure a : Eval ω α)) good w :=
  still fun _ _ => .inl ⟨a, ha, fun _ _ _ => rfl⟩

theorem raise {fault : Fault} (h : law.Strict → fault.isDefensive = false) :
    Lawful law cfg (fun ω _ => (Eval.raise fault : Eval ω α)) good w :=
  still fun _ _ => .inr ⟨fault, h, fun _ _ _ => rfl⟩

theorem stuck : Lawful law cfg (fun ω _ => (Eval.stuck : Eval ω α)) good w := fun _ _ =>
  ⟨.exhausted (), [], fun _ _ _ => rfl, .exhausted .nil, .nil, fun _ => .exhausted .nil⟩

theorem bind {e : Action α} {f : ∀ (ω : Type) [Observer ω], α → Eval ω β}
    (he : Lawful law cfg e good w) (hf : ∀ a, good a → Lawful law cfg (fun ω _ => f ω a) good' w) :
    Lawful law cfg (fun ω _ => e ω >>= f ω) good' w := by
  intro m hm
  obtain ⟨o, h, hc, hend, ho, hr⟩ := he m hm
  cases hend with
  | @done a m' ht hl ha =>
    obtain ⟨o', h', hc', hend', ho', hr'⟩ := hf a ha m' (ht.lawful hm)
    refine ⟨o', h ++ h', hc.bind hc', ?_, ho.append hl ho', fun hnone => ?_⟩
    · cases hend' with
      | done ht' hl' hb => exact .done (ht.append ht') (hl.trans hl') hb
      | failed ht' hl' => exact .failed (ht.append ht') (hl.trans hl')
      | exhausted ht' => exact .exhausted (ht.append ht')
    · obtain ⟨hh, hnone'⟩ := (hr hnone).unfailing
      exact (hr' hnone').prepend hh
  | @failed fault m' ht hl =>
    exact ⟨.failed fault m' (), h, hc.bind_failed, .failed ht hl, ho.failed, fun hnone =>
      (hr hnone).fault⟩
  | exhausted ht =>
    exact ⟨.exhausted (), h, hc.bind_exhausted, .exhausted ht, ho.exhausted, fun hnone =>
      .exhausted (hr hnone).endless⟩

theorem ite {c : Prop} [Decidable c] {e e' : Action α} (h : c → Lawful law cfg e good w)
    (h' : ¬ c → Lawful law cfg e' good w) :
    Lawful law cfg (fun ω _ => if c then e ω else e' ω) good w := by
  by_cases hc : c
  · simpa only [if_pos hc] using h hc
  · simpa only [if_neg hc] using h' hc

theorem mono {e : Action α} {better : α → Prop} (he : Lawful law cfg e better w)
    (h : ∀ a, better a → good a) : Lawful law cfg e good w := by
  intro m hm
  obtain ⟨o, moments, hc, hend, ho⟩ := he m hm
  refine ⟨o, moments, hc, ?_, ho⟩
  cases hend with
  | done ht hl ha => exact .done ht hl (h _ ha)
  | failed ht hl => exact .failed ht hl
  | exhausted ht => exact .exhausted ht

/-- Whether a call is waiting matters only where fallbacks are plain. -/
theorem of_plain {e : Action α} (he : Lawful law cfg e good)
    (hp : law.Plain → Lawful law cfg e good true) : Lawful law cfg e good true := by
  by_cases hlaw : law.Plain
  · exact hp hlaw
  · intro m hm
    obtain ⟨o, h, hc, hend, ho⟩ := he m hm
    exact ⟨o, h, hc, hend, ⟨ho.1.settled, fun hl => absurd hl hlaw, ho.1.refused⟩, ho.2⟩

theorem ask {f : Store → α} (h : ∀ s : Store, s.Lawful law → good (f s)) :
    Lawful law cfg (fun ω _ => (Eval.ask f : Eval ω α)) good w :=
  still fun m hm => .inl ⟨f m.store, h m.store hm, fun _ _ _ => rfl⟩

theorem query {f : Store → Except Fault α} (hf : law.Strict → ∀ s, Regular (f s))
    (h : ∀ (s : Store) (a : α), s.Lawful law → f s = .ok a → good a) :
    Lawful law cfg (fun ω _ => (Eval.query f : Eval ω α)) good w := by
  refine still fun m hm => ?_
  cases hs : f m.store with
  | ok a => exact .inl ⟨a, h m.store a hm hs, fun _ _ _ => by simp only [Eval.query, hs]⟩
  | error fault => exact .inr ⟨fault, fun hstrict => hf hstrict m.store fault hs, fun _ _ _ => by
      simp only [Eval.query, hs]⟩

/-- A part of the store is read, and it may be anything. -/
theorem look {f : Store → α} :
    Lawful law cfg (fun ω _ => (Eval.ask f : Eval ω α)) (fun _ => True) w :=
  ask fun _ _ => trivial

/-- A question to the store whose answer is not bound by the law. -/
theorem check {f : Store → Except Fault α} (hf : law.Strict → ∀ s, Regular (f s)) :
    Lawful law cfg (fun ω _ => (Eval.query f : Eval ω α)) (fun _ => True) w :=
  query hf fun _ _ _ _ => trivial

/-- What annotations stand for. -/
theorem resolve {types : List TypeExpr} (ht : ∀ t ∈ types, law.written t)
    {f : Store → Except Fault α} (hf : (∀ t ∈ types, t.Proper) → ∀ s, Regular (f s))
    (h : ∀ (s : Store) (a : α), s.Lawful law → f s = .ok a → good a) :
    Lawful law cfg (fun ω _ => (Eval.resolve types f : Eval ω α)) good w := by
  have hreport : Lawful law cfg (fun ω _ => (Eval.report (.resolving types) : Eval ω Unit))
      (fun _ => True) w :=
    step fun m _ => .inl ⟨(), _, trivial, .resolving ht, .refl m, trivial, fun _ => nofun, rfl,
      fun _ _ _ => rfl⟩
  exact .bind hreport fun _ _ => .query (fun hstrict => hf fun t hmem => hstrict.proper (ht t hmem)) h

theorem report {f : Function} {flow : Flow} (hf : law.function f) (h : flow.From law f.body) :
    Lawful law cfg (fun ω _ => (Eval.report (.finished f flow) : Eval ω Unit)) (fun _ => True) w :=
  step fun m _ => .inl
    ⟨(), _, trivial, .finished hf h, .refl m, trivial, fun _ => nofun, rfl, fun _ _ _ => rfl⟩

theorem create {f : Store → α × Store}
    (h : ∀ s : Store, s.Lawful law → good (f s).1 ∧ Change law s .changed (f s).2) :
    Lawful law cfg (fun ω _ => (Eval.create f : Eval ω α)) good w :=
  changing fun m hm => .inl ⟨(f m.store).1, _, (h _ hm).1, (h _ hm).2, fun _ _ _ => rfl⟩

/-- A change to the store that the law allows, told by `changed`. -/
theorem change {f : Store → Store} (h : ∀ s : Store, Change law s .changed (f s)) :
    Lawful law cfg (fun ω _ => (Eval.change f : Eval ω Unit)) (fun _ => True) w :=
  changing fun m _ => .inl ⟨(), f m.store, trivial, h m.store, fun _ _ _ => rfl⟩

theorem declare (env : Env) (name : String) {v : Value} (modifier : Modifier) (type : Option Ty)
    (hv : law.value v) (ht : ∀ t ∈ type, law.held t := by simp) :
    Lawful law cfg (fun ω _ => (Eval.declare env name v modifier type : Eval ω Unit))
      (fun _ => True) w := by
  refine changing fun m _ => ?_
  cases hf : m.store.declaration env name v modifier type with
  | ok b => exact .inl ⟨(), _, trivial, .declare hv ht hf, fun _ _ _ => by
      simp only [Eval.declare, Eval.bind, Eval.query, hf]; rfl⟩
  | error fault => exact .inr ⟨fault, fun _ => m.store.regular_declaration _ _ _ _ _ fault hf,
      fun _ _ _ => by simp only [Eval.declare, Eval.bind, Eval.query, hf]; rfl⟩

theorem assign (env : Env) (name : String) {v : Value} (hv : law.value v) :
    Lawful law cfg (fun ω _ => (Eval.assign env name v : Eval ω Unit)) (fun _ => True) w := by
  refine changing fun m _ => ?_
  cases hf : m.store.assignment env name v with
  | ok x => exact .inl ⟨(), _, trivial, .assign hv hf, fun _ _ _ => by
      simp only [Eval.assign, Eval.bind, Eval.query, hf]; rfl⟩
  | error fault => exact .inr ⟨fault, fun _ => m.store.regular_assignment _ _ _ fault hf,
      fun _ _ _ => by simp only [Eval.assign, Eval.bind, Eval.query, hf]; rfl⟩

theorem declareType (env : Env) (name : String) {type : Ty} (ht : law.type type) :
    Lawful law cfg (fun ω _ => (Eval.declareType env name type : Eval ω Unit)) (fun _ => True) w := by
  refine changing fun m _ => ?_
  cases hf : m.store.checkTypeName env name with
  | ok x => exact .inl ⟨(), _, trivial, .type ht hf, fun _ _ _ => by
      simp only [Eval.declareType, Eval.bind, Eval.query, hf]; rfl⟩
  | error fault => exact .inr ⟨fault, fun _ => m.store.regular_checkTypeName _ _ fault hf,
      fun _ _ _ => by simp only [Eval.declareType, Eval.bind, Eval.query, hf]; rfl⟩

theorem forM {β : Type} {xs : List β} {e : ∀ (ω : Type) [Observer ω], β → Eval ω PUnit}
    (h : ∀ x ∈ xs, Lawful law cfg (fun ω _ => e ω x) (fun _ => True) w) :
    Lawful law cfg (fun ω _ => (xs.forM (e ω) : Eval ω PUnit)) (fun _ => True) w := by
  induction xs with
  | nil => exact .pure trivial
  | cons x xs ih =>
    exact .bind (h x List.mem_cons_self) fun _ _ => ih fun y hy => h y (List.mem_cons_of_mem _ hy)

theorem print {f : Context → Context} (lines : Context → List String)
    (h : ∀ c, f c = (lines c).foldl Context.write c) :
    Lawful law cfg (fun ω _ => (Eval.note f : Eval ω Unit)) (fun _ => True) w := by
  refine step fun m _ => .inl ⟨(), _, trivial, .print (lines m.context), ?_, trivial, fun _ => nofun,
    Context.failure_foldl_write .., fun ω _ w => ?_⟩
  · exact ⟨Context.calls_foldl_write .., Context.loops_foldl_write ..⟩
  · simp only [Eval.note, Eval.report, h]

theorem countReading :
    Lawful law cfg (fun ω _ => (Eval.note (·.countReading) : Eval ω Unit)) (fun _ => True) w :=
  step fun m _ => .inl ⟨(), _, trivial, .clock, .refl m, trivial, fun _ => nofun, rfl, fun _ _ _ => rfl⟩

theorem consult (f : Context → α) :
    Lawful law cfg (fun ω _ => (Eval.consult f : Eval ω α)) (fun _ => True) w :=
  still fun m _ => .inl ⟨f m.context, trivial, fun _ _ _ => rfl⟩

/-- Done at `m'`, the action leads by steps to a machine with the stacks of `m`, and ends what the
moments of `h` have begun. The moments on the way and the machine at the end are as `keeps` says. -/
def Settles (law : CodeLaw) (cfg : Config) (w w' : Bool) (m m₁ : Machine) (h : List Moment)
    (e : Action Unit) (m' : Machine) (keeps : List Moment → Machine → Prop) : Prop :=
  ∃ m'' h', Course e m' (.done () m'' ()) h' ∧ Trace law cfg m' h' m'' ∧ m.Level m'' ∧
    Encloses cfg w w' m m₁ h h' ∧ keeps h' m''

/-- No fault comes up from `m` on, and no trace is kept. -/
def Passes (m : Machine) (h : List Moment) (m' : Machine) : Prop :=
  m.context.failure = none → Unfailing h ∧ m'.context.failure = none

/-- If the trace for a fault is kept or can still be taken at `m`, so it is after the moments of
`h`, in which no other fault comes up. -/
def Carries (cfg : Config) (m : Machine) (h : List Moment) (m' : Machine) : Prop :=
  ∀ x, Kept cfg x m → Unwinding cfg x h ∧ Kept cfg x m'

/-- A body after `enter`, which may fail, and before `done` or `failed`, which settles what `enter`
began. -/
theorem around {body : Action α} {enter done failed : Action Unit} {w' : Bool}
    (hbody : Lawful law cfg body good w')
    (henter : ∀ m, (∃ m₁ h₁, Course enter m (.done () m₁ ()) h₁ ∧ Trace law cfg m h₁ m₁ ∧
        Passes m h₁ m₁ ∧
        ∀ m', m₁.Level m' → Settles law cfg w w' m m₁ h₁ done m' (Passes m') ∧
          Settles law cfg w w' m m₁ h₁ failed m' (Carries cfg m')) ∨
      ∃ fault h₁, Course enter m (.failed fault m ()) h₁ ∧ Trace law cfg m h₁ m ∧
        Orderly law cfg w m h₁ (.failed fault m () : Outcome Unit α) ∧
        (m.context.failure = none → Reported cfg h₁ (.failed fault m () : Outcome Unit α))) :
    Lawful law cfg
      (fun ω _ => Eval.bind (enter ω) fun _ => Eval.ending (body ω) (done ω) (failed ω)) good w := by
  intro m hm
  rcases henter m with ⟨m₁, h₁, hin, ht₁, hpass, hout⟩ | ⟨fault, h₁, hin, ht₁, ho₁, hr₁⟩
  · obtain ⟨o, h, hc, hend, ho, hr⟩ := hbody m₁ (ht₁.lawful hm)
    -- what the body comes to for an observer that has seen the beginning
    have hrun : ∀ (ω : Type) [Observer ω] (w : ω),
        Eval.bind (enter ω) (fun _ => Eval.ending (body ω) (done ω) (failed ω)) m w =
          Eval.ending (fun _ _ => o.seenBy ((h₁ ++ h).foldl Observer.see w)) (done ω) (failed ω)
            m w := by
      intro ω _ w
      rw [Eval.bind, hin ω w]
      show Eval.ending (body ω) (done ω) (failed ω) m₁ (h₁.foldl Observer.see w) = _
      rw [Eval.ending, hc ω (h₁.foldl Observer.see w), List.foldl_append]
      rfl
    have hreported : m.context.failure = none → Reported cfg (h₁ ++ h) o := fun hnone =>
      (hr (hpass hnone).2).prepend (hpass hnone).1
    cases hend with
    | @done a m' ht hl ha =>
      obtain ⟨m'', h₂, hc', ht', hl', henc, hkeeps⟩ := (hout m' hl).1
      have hall := (ht₁.append ht).append ht'
      refine ⟨.done a m'' (), h₁ ++ h ++ h₂, fun ω _ w => ?_, .done hall hl' ha,
        henc.ended ho rfl (fun _ _ heq => by cases heq), fun hnone => ?_⟩
      · refine (hrun ω w).trans ?_
        show Eval.bind (done ω) (fun _ => Eval.pure a) m' _ = _
        rw [List.foldl_append (l := h₁ ++ h), Eval.bind, hc' ω]
        rfl
      · obtain ⟨hh, hnone'⟩ := (hreported hnone).unfailing
        obtain ⟨hh₂, hnone''⟩ := hkeeps hnone'
        exact .done (hh.append hh₂) hnone''
    | @failed fault m' ht hl =>
      obtain ⟨m'', h₂, hc', ht', hl', henc, hkeeps⟩ := (hout m' hl).2
      have hall := (ht₁.append ht).append ht'
      refine ⟨.failed fault m'' (), h₁ ++ h ++ h₂, fun ω _ w => ?_, .failed hall hl',
        henc.ended ho rfl (fun _ _ heq => by cases heq; exact ⟨_, rfl⟩), fun hnone =>
          (hreported hnone).settle hkeeps⟩
      refine (hrun ω w).trans ?_
      show Eval.bind (failed ω) (fun _ => Eval.pass fault) m' _ = _
      rw [List.foldl_append (l := h₁ ++ h), Eval.bind, hc' ω]
      rfl
    | exhausted ht =>
      obtain ⟨_, _, _, _, _, henc, _⟩ := (hout m₁ (.refl m₁)).1
      exact ⟨.exhausted (), h₁ ++ h, fun ω _ w => hrun ω w, .exhausted (ht₁.append ht),
        henc.exhausted ho, hreported⟩
  · refine ⟨.failed fault m (), h₁, fun ω _ w => ?_, .failed ht₁ (.refl m), ho₁, hr₁⟩
    show Eval.bind (enter ω) _ m w = _
    rw [Eval.bind, hin ω w]
    rfl

section

variable {m m' : Machine} {x : Moment}

/-- A moment that is not about a fault and leaves the trace alone. -/
theorem passes_single (hx : x.Sound) (hf : x.machine.context.failure = m.context.failure) :
    Passes m [x] x.machine := by
  intro hnone
  rw [← hf] at hnone
  exact ⟨.single hx hnone, hnone⟩

theorem carries_single (hx : x.Sound) (hk : ∀ y, Kept cfg y m → Kept cfg y x.machine) :
    Carries cfg m [x] x.machine :=
  fun y hy => ⟨.single hx (hk y hy), hk y hy⟩

end

theorem settles_note {w' : Bool} {m m₁ m' : Machine} {h : List Moment} {f : Context → Context}
    {keeps : List Moment → Machine → Prop}
    (hx : Step law cfg m' ⟨.changed, { m' with context := f m'.context }⟩)
    (hl : m.Level { m' with context := f m'.context })
    (henc : Encloses cfg w w' m m₁ h [⟨.changed, { m' with context := f m'.context }⟩])
    (hkeeps : keeps [⟨.changed, { m' with context := f m'.context }⟩]
      { m' with context := f m'.context }) :
    Settles law cfg w w' m m₁ h (fun ω _ => (Eval.note f : Eval ω Unit)) m' keeps :=
  ⟨_, [_], fun _ _ _ => rfl, .single hx, hl, henc, hkeeps⟩

theorem asCall (f : Function) {body : Action α} (h : Lawful law cfg body good true) :
    Lawful law cfg (fun ω _ => Eval.asCall f (body ω)) good := by
  refine around h fun m => .inl ⟨m, [⟨.called f, m⟩], fun _ _ _ => rfl, .single (.called f),
    passes_single (fun _ => nofun) rfl, fun m' hl => ?_⟩
  have hsettles {keeps : List Moment → Machine → Prop} (hkeeps : keeps [⟨.returned f, m'⟩] m') :
      Settles law cfg false true m m [⟨.called f, m⟩]
        (fun ω _ => (Eval.report (.returned f) : Eval ω Unit)) m' keeps :=
    ⟨m', [_], fun _ _ _ => rfl, .single (.returned f), hl, .of_call hl, hkeeps⟩
  exact ⟨hsettles (passes_single (fun _ => nofun) rfl),
    hsettles (carries_single (fun _ => nofun) fun _ hk => hk)⟩

theorem inCall (f : Function) {frame : Frame} {body : Action α} (hsite : law.site frame.span)
    (h : Lawful law cfg body good) :
    Lawful law cfg (fun ω _ => Eval.inCall cfg f frame (body ω)) good true := by
  refine around h fun m => ?_
  have hbound : Moment.Sound ⟨.bound f, m⟩ := by rintro _ ⟨⟩
  -- the call is made only if there is room for its frame
  cases hp : m.context.push cfg frame with
  | error fault =>
    obtain rfl := Context.push_eq_error hp
    have hraised : Step law cfg m ⟨.raised (.callDepth cfg.settings.maxCallDepth), m⟩ :=
      .raised fun _ => rfl
    refine .inr ⟨.callDepth cfg.settings.maxCallDepth, [⟨.bound f, m⟩, ⟨.raised _, m⟩],
      fun _ _ _ => ?_, .cons (.bound f) (.single hraised), ?_, fun hnone => ?_⟩
    · simp only [Eval.bind, Eval.report, Eval.enterCall, hp]
      rfl
    · exact ⟨fun _ _ => rfl, fun _ _ hn => ⟨hn, hn, trivial⟩, fun _ _ _ => ⟨m, rfl⟩⟩
    · exact (Reported.single hnone).prepend (.single hbound hnone)
  | ok context =>
    refine .inl ⟨{ m with context }, [⟨.bound f, m⟩, ⟨.changed, { m with context }⟩], fun _ _ _ => ?_,
      .cons (.bound f) (.single (.call hsite hp)), ?_, fun m' hl => ?_⟩
    · simp only [Eval.bind, Eval.report, Eval.enterCall, hp]
      rfl
    · intro hnone
      obtain ⟨-, rfl⟩ := Context.push_eq_ok hp
      exact ⟨.append (.single hbound hnone) (.single (by rintro _ ⟨⟩) hnone), hnone⟩
    · obtain ⟨hroom, rfl⟩ := Context.push_eq_ok hp
      obtain ⟨hcalls, hloops⟩ := hl
      have hback : m.Level { m' with context := m'.context.pop } := by
        refine ⟨?_, hloops⟩
        show m'.context.calls.tail = m.context.calls
        rw [hcalls]
        rfl
      have hunwind : m.Level { m' with context := (m'.context.capture cfg).pop } := by
        refine ⟨?_, ?_⟩
        · show (m'.context.capture cfg).calls.tail = m.context.calls
          rw [Context.calls_capture, hcalls]
          rfl
        · show (m'.context.capture cfg).loops = m.context.loops
          rw [Context.loops_capture, hloops]
      exact ⟨settles_note .back hback (.of_frame hroom rfl hback.depth)
          (passes_single (by rintro _ ⟨⟩) rfl),
        settles_note .unwind hunwind (.of_frame hroom rfl hunwind.depth)
          (carries_single (by rintro _ ⟨⟩) fun _ hk => .inl hk.capture)⟩

theorem inLoop (name : String) {body : Action α} (h : Lawful law cfg body good) :
    Lawful law cfg (fun ω _ => Eval.inLoop name (body ω)) good := by
  refine around h fun m => .inl ⟨_, [_], fun _ _ _ => rfl, .single (.enterLoop name),
    passes_single (fun _ => nofun) rfl, fun m' hl => ?_⟩
  obtain ⟨hcalls, hloops⟩ := hl
  have hout : m.Level { m' with context := m'.context.exitLoop } := by
    refine ⟨hcalls, ?_⟩
    show m'.context.loops.tail = m.context.loops
    rw [hloops]
    rfl
  have henc : Encloses cfg false false m { m with context := m.context.enterLoop name }
      [⟨.changed, { m with context := m.context.enterLoop name }⟩]
      [⟨.changed, { m' with context := m'.context.exitLoop }⟩] :=
    .of_calm rfl (List.forall_mem_singleton.2 ⟨trivial, rfl⟩)
      (List.forall_mem_singleton.2 ⟨trivial, hout.depth⟩)
  exact ⟨settles_note .exitLoop hout henc (passes_single (fun _ => nofun) rfl),
    settles_note .exitLoop hout henc (carries_single (fun _ => nofun) fun _ hk => hk.of_eq rfl rfl)⟩

theorem inRun {body : Action α} (h : Lawful law cfg body good) :
    Lawful law cfg (fun ω _ => Eval.inRun cfg (body ω)) good := by
  refine around h fun m => .inl ⟨_, [_], fun _ _ _ => rfl, .single .clear,
    fun _ => ⟨.single (fun _ => nofun) rfl, rfl⟩, fun m' hl => ⟨?_, ?_⟩⟩
  · exact ⟨m', [], fun _ _ _ => rfl, .nil, hl,
      .of_calm rfl (List.forall_mem_singleton.2 ⟨trivial, rfl⟩) (List.forall_mem_nil _),
      fun hnone => ⟨.nil, hnone⟩⟩
  · have hout : m.Level { m' with context := m'.context.capture cfg } := by
      refine ⟨?_, ?_⟩
      · show (m'.context.capture cfg).calls = m.context.calls
        rw [Context.calls_capture]
        exact hl.1
      · show (m'.context.capture cfg).loops = m.context.loops
        rw [Context.loops_capture]
        exact hl.2
    exact settles_note .capture hout (.of_calm rfl (List.forall_mem_singleton.2 ⟨trivial, rfl⟩)
      (List.forall_mem_singleton.2 ⟨trivial, hout.depth⟩))
      (carries_single (fun _ => nofun) fun _ hk => .inl hk.capture)

end Lawful

end

end Sable
