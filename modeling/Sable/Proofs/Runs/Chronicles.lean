import Sable.Proofs.Runs.Sessions
import Sable.Proofs.Store.Growth

/-!
# Chronicles of sessions

`Session.chronicle`: the machine before, during and after the runs of a list of programs, whether they
succeed or fail. Of any two machines in it the later `Keeps` the earlier: nothing declared is undone,
and no output is taken back.
-/

namespace Sable

/-- The store keeps what it had, and the output has only become longer. -/
structure Machine.Keeps (old new : Machine) : Prop where
  store : old.store.Keeps new.store
  output : old.context.output.toList <+: new.context.output.toList

namespace Machine.Keeps

variable {m m' m'' : Machine}

theorem refl (m : Machine) : m.Keeps m :=
  ⟨.refl _, List.prefix_refl _⟩

theorem trans (h : m.Keeps m') (h' : m'.Keeps m'') : m.Keeps m'' :=
  ⟨h.store.trans h'.store, h.output.trans h'.output⟩

/-- A change of the context that leaves the output alone. -/
theorem of_output {context : Context} (h : context.output = m.context.output) :
    m.Keeps { m with context } :=
  ⟨.refl _, h ▸ List.prefix_refl _⟩

end Machine.Keeps

namespace Context

theorem output_capture (cfg : Config) (c : Context) : (c.capture cfg).output = c.output := by
  unfold capture
  split <;> rfl

theorem output_foldl_write (lines : List String) (c : Context) :
    (lines.foldl write c).output.toList = c.output.toList ++ lines := by
  induction lines generalizing c with
  | nil => simp
  | cons line lines ih =>
    rw [List.foldl_cons, ih]
    simp [write]

end Context

section

variable {law : CodeLaw} {cfg : Config}

theorem Step.keeps {m : Machine} {x : Moment} (h : Step law cfg m x) : m.Keeps x.machine := by
  cases h with
  | store h => exact ⟨h.keeps, List.prefix_refl _⟩
  | made h => exact ⟨h.keeps, List.prefix_refl _⟩
  | wrote h => exact ⟨h.keeps, List.prefix_refl _⟩
  | print lines =>
    refine ⟨.refl _, ?_⟩
    rw [Context.output_foldl_write]
    exact List.prefix_append _ _
  | call _ h =>
    obtain ⟨-, rfl⟩ := Context.push_eq_ok h
    exact .of_output rfl
  | unwind | capture => exact .of_output (Context.output_capture cfg m.context)
  | back | enterLoop _ | exitLoop | clear | clock => exact .of_output rfl
  | raised _ | resolving _ | called _ | bound _ | returned _ | finished _ _ => exact .refl m

/-- Along a trace every machine keeps what those before it hold, and so does the last. -/
theorem Trace.pairwise_keeps {m m' : Machine} {h : List Moment} (ht : Trace law cfg m h m') :
    (m :: h.map (·.machine)).Pairwise Machine.Keeps ∧
    ∀ x ∈ m :: h.map (·.machine), x.Keeps m' := by
  induction ht with
  | nil => exact ⟨List.pairwise_singleton _ _, fun x hx => List.mem_singleton.1 hx ▸ .refl _⟩
  | @cons m m' x h hx ht ih =>
    obtain ⟨hpairs, hlast⟩ := ih
    refine ⟨List.pairwise_cons.2 ⟨fun y hy => ?_, hpairs⟩, fun y hy => ?_⟩
    · rcases List.mem_cons.1 hy with rfl | hy
      · exact hx.keeps
      · exact hx.keeps.trans (List.rel_of_pairwise_cons hpairs hy)
    · rcases List.mem_cons.1 hy with rfl | hy
      · exact hx.keeps.trans (hlast _ List.mem_cons_self)
      · exact hlast y hy

end

/-! ### Sessions -/

/-- A program with what its run is given. -/
structure Job where
  program : Program
  cfg : Config
  fuel : Nat

namespace Session

/-- The machine as it is at first, at every moment of the runs, and after each of them. A run
without an answer is the last. -/
def chronicle : Session → List Job → List Machine
  | s, [] => [s.machine]
  | s, job :: jobs =>
    s.machine :: (s.history job.cfg job.fuel job.program).map (·.machine) ++
      match s.run job.cfg job.fuel job.program with
      | some (_, s') => chronicle s' jobs
      | none => []

theorem keeps_of_mem_chronicle {s : Session} {jobs : List Job}
    (h : (s.chronicle jobs).Pairwise Machine.Keeps) :
    ∀ m ∈ s.chronicle jobs, s.machine.Keeps m := by
  intro m hm
  cases jobs with
  | nil =>
    rw [List.mem_singleton.1 hm]
    exact .refl _
  | cons job jobs =>
    rcases List.mem_cons.1 hm with rfl | hm
    · exact .refl _
    · exact List.rel_of_pairwise_cons h hm

/-- Whatever programs are run in a session, at any moment every scope still has what it had at any
earlier one: its names, the values of those that are not mutable, the types recorded for them, its
types, methods, getters and fulfillments. The output has only become longer. -/
theorem chronicle_keeps (s : Session) (jobs : List Job) :
    (s.chronicle jobs).Pairwise Machine.Keeps := by
  induction jobs generalizing s with
  | nil => exact List.pairwise_singleton _ _
  | cons job jobs ih =>
    have hany : ∀ t ∈ job.program.body, CodeLaw.any.stmt t := fun _ _ => trivial
    obtain ⟨-, ⟨m', ht⟩, hafter⟩ :=
      watch_lawful job.cfg job.fuel (CodeLaw.any_store s.store) hany
    refine List.pairwise_append.2 ⟨ht.pairwise_keeps.1, ?_, fun x hx y hy => ?_⟩
    · split
      · exact ih _
      · exact List.Pairwise.nil
    · split at hy
      · rename_i s' hrun
        obtain ⟨ht', -⟩ := hafter _ s' hrun
        exact (ht'.pairwise_keeps.2 x hx).trans (keeps_of_mem_chronicle (ih s') y hy)
      · cases hy

end Session

end Sable
