import Sable.Fault
import Sable.Settings
import Sable.Span

/-!
# The context of a run

A `Context` holds the calls and loops in progress, the lines printed so far, the trace of the first
failure, and how often the clock has been read. A `Config` is what a run is given from outside.
-/

namespace Sable

/-- A call in progress and the place it was made from. -/
structure Frame where
  function : String
  span : Span
  deriving DecidableEq, Inhabited

structure Context where
  /-- Calls in progress, innermost first. -/
  calls : List Frame := []
  /-- Names of the loops in progress, innermost first. -/
  loops : List String := []
  output : Array String := #[]
  /-- The trace of the first failure. -/
  failure : Option String := none
  /-- How often the clock has been read. -/
  readings : Nat := 0

/-- What a run is given beside its program. -/
structure Config where
  file : String
  settings : Settings := {}
  /-- The time at each reading of the clock, in whole milliseconds. -/
  clock : Nat → Float := fun _ => 0

namespace Context

def depth (c : Context) : Nat :=
  c.calls.length

def activeLoop (c : Context) : Option String :=
  c.loops.head?

/-- Enters a call, unless as many as may be are in progress. -/
def push (cfg : Config) (c : Context) (frame : Frame) : Except Fault Context :=
  if cfg.settings.maxCallDepth ≤ c.depth then .error (.callDepth cfg.settings.maxCallDepth)
  else .ok { c with calls := frame :: c.calls }

def pop (c : Context) : Context :=
  { c with calls := c.calls.tail }

def enterLoop (c : Context) (name : String) : Context :=
  { c with loops := name :: c.loops }

def exitLoop (c : Context) : Context :=
  { c with loops := c.loops.tail }

def write (c : Context) (line : String) : Context :=
  { c with output := c.output.push line }

def countReading (c : Context) : Context :=
  { c with readings := c.readings + 1 }

/-- The lines of a trace: the innermost calls, and the number of those left out. -/
def traceLines (cfg : Config) (c : Context) : List String :=
  let limit := cfg.settings.maxStackFrames
  let shown := (c.calls.take limit).map fun f =>
    s!"    at {f.function} ({cfg.file}:{f.span.start.text})"
  if limit < c.depth then shown ++ [s!"    … {c.depth - limit} more frames"] else shown

def trace (cfg : Config) (c : Context) : String :=
  "\n".intercalate (c.traceLines cfg)

/-- Keeps the trace, unless one is kept already. -/
def capture (cfg : Config) (c : Context) : Context :=
  match c.failure with
  | some _ => c
  | none => { c with failure := some (c.trace cfg) }

def clearFailure (c : Context) : Context :=
  { c with failure := none }

end Context

end Sable
