import Sable.Context
import Sable.Store.Contracts

/-!
# Evaluation

Evaluating is a function from the state of the machine to an outcome: a value, a fault, each with
the state it leaves, or no answer within the fuel given. An evaluation can be watched: an observer
is shown every state that the machine comes to.
-/

namespace Sable

structure Machine where
  store : Store := {}
  context : Context := {}

/-- How a statement ends: with a value, or with a jump out of the code around it. -/
inductive Flow where
  | normal (v : Value)
  | ret (v : Value)
  | leave (loop : Nat)
  | skip (loop : Nat)

/-- What an observer is told. -/
inductive Event where
  /-- The machine has changed. -/
  | changed
  /-- An instance has been made, of a struct with these parameters and members. -/
  | made (object : Value) (params : List Bound) (members : List Member)
  /-- Code in these scopes has given a property of the object at the address a value. -/
  | wrote (env : Env) (address : Nat) (field : String) (v : Value)
  /-- A fault has come up. -/
  | raised (fault : Fault)
  /-- These annotations are evaluated. -/
  | resolving (types : List TypeExpr)
  /-- A call of a function has begun. -/
  | called (f : Function)
  /-- The arguments of a call are bound. -/
  | bound (f : Function)
  /-- The body of a function has come to its end. -/
  | finished (f : Function) (flow : Flow)
  /-- A call of a function is over, with a value or with a fault. -/
  | returned (f : Function)

/-- An event, and the machine as it is then. -/
structure Moment where
  event : Event
  machine : Machine

/-- Something that watches an evaluation, and that the evaluation takes no notice of. -/
class Observer (ω : Type) where
  see : ω → Moment → ω

instance : Observer Unit where
  see _ _ := ()

/-- The end of an evaluation watched by an `ω`, with what that has seen. -/
inductive Outcome (ω α : Type) where
  | done (a : α) (m : Machine) (seen : ω)
  | failed (fault : Fault) (m : Machine) (seen : ω)
  /-- The fuel ran out before there was an answer. -/
  | exhausted (seen : ω)

def Outcome.seen {ω α : Type} : Outcome ω α → ω
  | done _ _ w | failed _ _ w | exhausted w => w

def Eval (ω α : Type) : Type :=
  Machine → ω → Outcome ω α

namespace Eval

variable {ω α β : Type}

@[inline] def pure (a : α) : Eval ω α := fun m w =>
  .done a m w

@[inline] def bind (e : Eval ω α) (f : α → Eval ω β) : Eval ω β := fun m w =>
  match e m w with
  | .done a m w => f a m w
  | .failed fault m w => .failed fault m w
  | .exhausted w => .exhausted w

instance : Monad (Eval ω) where
  pure := pure
  bind := bind

theorem bind_done {e : Eval ω α} {f : α → Eval ω β} {m m' : Machine} {w w' : ω} {a : α}
    (h : e m w = .done a m' w') : (e >>= f) m w = f a m' w' := by
  show bind e f m w = _
  rw [bind, h]

/-- A fault that came up before goes on. -/
@[inline] def pass (fault : Fault) : Eval ω α := fun m w =>
  .failed fault m w

/-- No answer within the fuel. -/
@[inline] def stuck : Eval ω α := fun _ w =>
  .exhausted w

/-- Asks the store. -/
@[inline] def ask (f : Store → α) : Eval ω α := fun m w =>
  .done (f m.store) m w

/-- Asks the context. -/
@[inline] def consult (f : Context → α) : Eval ω α := fun m w =>
  .done (f m.context) m w

variable [Observer ω]

/-- Tells the observer. -/
@[inline] def report (event : Event) : Eval ω Unit := fun m w =>
  .done () m (Observer.see w ⟨event, m⟩)

/-- A fault comes up. -/
@[inline] def raise (fault : Fault) : Eval ω α := fun m w =>
  .failed fault m (Observer.see w ⟨.raised fault, m⟩)

/-- Asks the store for something that may fail. -/
@[inline] def query (f : Store → Except Fault α) : Eval ω α := fun m w =>
  match f m.store with
  | .ok a => .done a m w
  | .error fault => raise fault m w

/-- Asks the store for what annotations stand for. -/
@[inline] def resolve (types : List TypeExpr) (f : Store → Except Fault α) : Eval ω α :=
  bind (report (.resolving types)) fun _ => query f

/-- Makes something new in the store. -/
@[inline] def create (f : Store → α × Store) (event : α → Event := fun _ => .changed) : Eval ω α :=
  fun m w =>
    match f m.store with
    | (a, store) => bind (report (event a)) (fun _ => pure a) { m with store } w

/-- Changes the store. -/
@[inline] def change (f : Store → Store) (event : Event := .changed) : Eval ω Unit := fun m w =>
  report event { m with store := f m.store } w

/-- Declares a name in the innermost scope. -/
def declare (env : Env) (name : String) (v : Value) (modifier : Modifier) (type : Option Ty) :
    Eval ω Unit :=
  bind (query fun store => store.declaration env name v modifier type) fun b =>
    change fun store => store.bind env.here name b

/-- Gives a name another value. -/
def assign (env : Env) (name : String) (v : Value) : Eval ω Unit :=
  bind (query fun store => store.assignment env name v) fun (address, b) =>
    change fun store => store.bind address name b

/-- Gives a type a new name in the innermost scope. -/
def declareType (env : Env) (name : String) (type : Ty) : Eval ω Unit :=
  bind (query fun store => store.checkTypeName env name) fun _ =>
    change fun store => store.setType env name type

/-- Changes the context. -/
@[inline] def note (f : Context → Context) : Eval ω Unit := fun m w =>
  report .changed { m with context := f m.context } w

/-- Enters a call. -/
@[inline] def enterCall (cfg : Config) (frame : Frame) : Eval ω Unit := fun m w =>
  match m.context.push cfg frame with
  | .ok context => report .changed { m with context } w
  | .error fault => raise fault m w

/-- Evaluates, and then what is given for the way in which the evaluation ends. -/
@[inline] def ending (body : Eval ω α) (done failed : Eval ω Unit) : Eval ω α := fun m w =>
  match body m w with
  | .done a m w => bind done (fun _ => pure a) m w
  | .failed fault m w => bind failed (fun _ => pass fault) m w
  | .exhausted w => .exhausted w

/-- Evaluates as a call of a function, from its arguments on. -/
def asCall (f : Function) (body : Eval ω α) : Eval ω α :=
  bind (report (.called f)) fun _ => ending body (report (.returned f)) (report (.returned f))

/-- Evaluates the body of a call, whose arguments are bound, with the call on the stack. It leaves
the stack however the evaluation ends, and the trace of a failure is kept before it does. -/
def inCall (cfg : Config) (f : Function) (frame : Frame) (body : Eval ω α) : Eval ω α :=
  bind (bind (report (.bound f)) fun _ => enterCall cfg frame) fun _ =>
    ending body (note (·.pop)) (note fun context => (context.capture cfg).pop)

/-- Evaluates inside a loop. The loop ends however the evaluation does. -/
def inLoop (name : String) (body : Eval ω α) : Eval ω α :=
  bind (note (·.enterLoop name)) fun _ => ending body (note (·.exitLoop)) (note (·.exitLoop))

/-- Evaluates as a run of its own: the trace of an earlier failure is forgotten, and that of a
failure is kept. -/
def inRun (cfg : Config) (body : Eval ω α) : Eval ω α :=
  bind (note (·.clearFailure)) fun _ => ending body (pure ()) (note (·.capture cfg))

end Eval

end Sable
