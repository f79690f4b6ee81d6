import Sable.Eval
import Sable.Program

/-!
# Sessions

A session keeps its global scope and everything reachable from it from one program to the next,
whether a program succeeds or fails.
-/

namespace Sable

variable {ω : Type} [Observer ω]

/-- Runs statements of a program in order, `last` being the value of the one before. A return ends
the program. -/
def Eval.program (cfg : Config) (fuel : Nat) (env : Env) : Value → List Stmt → Eval ω Value
  | last, [] => return last
  | last, s :: rest => do
    match ← stmt cfg fuel env s with
    | .normal v => program cfg fuel env v rest
    | .ret v => return v
    | .leave _ | .skip _ => return last

structure Session where
  globals : Env
  machine : Machine

namespace Session

/-- A session with nothing but the built-in names. -/
def start : Session :=
  let (globals, store) := ({} : Store).newRoot
  ⟨globals, { store := store.bootstrap globals }⟩

/-- More fuel than a program can use in a lifetime. -/
def ample : Nat :=
  Nat.pow 10 18

/-- The answer of a run and the session after it. There is none if the fuel did not suffice. -/
def after (s : Session) : Outcome ω Value → Option (Except Fault Value × Session)
  | .done v machine _ => some (.ok v, { s with machine })
  | .failed fault machine _ => some (.error fault, { s with machine })
  | .exhausted _ => none

/-- Runs a program under an observer. -/
def watch (cfg : Config) (fuel : Nat) (s : Session) (p : Program) (w : ω) :
    Option (Except Fault Value × Session) × ω :=
  let outcome := Eval.inRun cfg (Eval.program cfg fuel s.globals .nothing p.body) s.machine w
  (s.after outcome, outcome.seen)

/-- Runs a program. -/
def run (cfg : Config) (fuel : Nat) (s : Session) (p : Program) :
    Option (Except Fault Value × Session) :=
  (s.watch cfg fuel p ()).1

def store (s : Session) : Store :=
  s.machine.store

def context (s : Session) : Context :=
  s.machine.context

end Session

end Sable
