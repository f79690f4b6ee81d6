import Sable.Eval.Loops
import Sable.Proofs.Jumps.Syntax

/-!
# Jumps out of a statement

`Stmt.Escapes`: a jump inside a statement carries a number that no loop around it inside the statement
has. If every jump is `Stmt.Bound` to a loop around it, none escapes the program.
-/

namespace Sable

/-- The number of the loop that a jump carries. -/
def Flow.target? : Flow → Option Nat
  | .normal _ | .ret _ => none
  | .leave id | .skip id => some id

namespace Stmt

/-- The flow that a jump gives rise to. -/
def flow? : Stmt → Option Flow
  | leave id _ _ => some (.leave id)
  | skip id _ _ => some (.skip id)
  | _ => none

/-- The functions that a statement declares. -/
def functions : Stmt → List Function
  | function f => [f]
  | fulfill _ _ methods getters => methods ++ getters.map (·.toFunction)
  | _ => []

theorem bodies_eq (s : Stmt) : s.bodies = s.functions.map (·.body) := by
  cases s with
  | fulfill _ _ methods getters =>
    simp only [bodies, functions, List.map_append, List.map_map]
    rfl
  | _ => rfl

theorem body_mem_bodies {s : Stmt} {f : Function} (h : f ∈ s.functions) : f.body ∈ s.bodies := by
  rw [bodies_eq]
  exact List.mem_map_of_mem h

/-- The loops around a part are those inside the statement and those around the statement. -/
theorem parts_append (inner outer : List Enclosing) (s : Stmt) :
    s.parts (inner ++ outer) = (s.parts inner).map fun x => (x.1 ++ outer, x.2) := by
  cases s <;> simp [parts, Function.comp_def]

theorem mem_parts_append {x : List Enclosing × Stmt} {inner : List Enclosing} {s : Stmt}
    (h : x ∈ s.parts inner) (outer : List Enclosing) :
    (x.1 ++ outer, x.2) ∈ s.parts (inner ++ outer) := by
  rw [parts_append]
  exact List.mem_map_of_mem h

end Stmt

/-- `t` stands in the statement `s`, in the same function, with `loops` around it inside `s`. -/
inductive Inside (s : Stmt) : (loops : List Enclosing) → (t : Stmt) → Prop
  | self : Inside s [] s
  | part {loops : List Enclosing} {t : Stmt} {x : List Enclosing × Stmt} (ht : Inside s loops t)
      (h : x ∈ t.parts loops) : Inside s x.1 x.2

theorem Inside.of_part {s t : Stmt} {x : List Enclosing × Stmt} {loops : List Enclosing}
    (hx : x ∈ s.parts []) (ht : Inside x.2 loops t) : Inside s (loops ++ x.1) t := by
  induction ht with
  | self => exact .part .self hx
  | part _ h ih => exact .part ih (Stmt.mem_parts_append h x.1)

namespace Stmt

/-- A jump inside the statement leads out of it: no loop around the jump inside the statement has
the number that the jump carries. -/
def Escapes (s : Stmt) (flow : Flow) : Prop :=
  ∃ loops t, Inside s loops t ∧ t.flow? = some flow ∧ ∀ loop ∈ loops, flow.target? ≠ some loop.id

theorem Escapes.of_flow {s : Stmt} {flow : Flow} (h : s.flow? = some flow) : s.Escapes flow :=
  ⟨[], s, .self, h, by simp⟩

theorem Escapes.of_part {s : Stmt} {flow : Flow} {x : List Enclosing × Stmt} (hx : x ∈ s.parts [])
    (h : x.2.Escapes flow) (hloops : ∀ loop ∈ x.1, flow.target? ≠ some loop.id) : s.Escapes flow := by
  obtain ⟨loops, t, ht, hflow, hinner⟩ := h
  refine ⟨loops ++ x.1, t, .of_part hx ht, hflow, fun loop hloop => ?_⟩
  rcases List.mem_append.1 hloop with hl | hl
  · exact hinner loop hl
  · exact hloops loop hl

/-- A statement of a function, its jumps all bound, lets no jump out. -/
theorem Bound.not_escapes {s : Stmt} (h : s.Bound []) (flow : Flow) : ¬ s.Escapes flow := by
  rintro ⟨loops, t, ht, hflow, hloops⟩
  have hbound : t.Bound loops := by
    clear hflow hloops
    induction ht with
    | self => exact h
    | part _ hx ih => exact ih.part hx
  obtain ⟨id, label, hjump, htarget⟩ :
      ∃ id label, t.jump? = some (id, label) ∧ flow.target? = some id := by
    cases t <;> cases hflow <;> exact ⟨_, _, rfl, rfl⟩
  obtain ⟨loop, hloop, hid⟩ := (hbound.jump hjump).mem
  exact hloops loop hloop (by rw [hid, htarget])

end Stmt

/-- A loop passes on only what is not for itself. -/
theorem LoopStep.target_ne {id : Nat} {flow out : Flow} (h : LoopStep.ofFlow id flow = .escape out) :
    out = flow ∧ flow.target? ≠ some id := by
  cases flow with
  | normal v => cases h
  | ret v =>
    cases h
    exact ⟨rfl, by simp [Flow.target?]⟩
  | leave target | skip target =>
    simp only [LoopStep.ofFlow] at h
    split at h
    · cases h
    · rename_i hne
      cases h
      exact ⟨rfl, fun he => hne (Option.some.inj he)⟩

end Sable
