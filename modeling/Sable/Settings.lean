import Sable.Text.Blank

/-!
# Settings

The limits of a run, read from the environment where it gives usable ones.
-/

namespace Sable

structure Settings where
  /-- Calls shown in a trace before the rest are only counted. -/
  maxStackFrames : Nat := 10
  maxCallDepth : Nat := 256
  /-- Whether printed lines go to the standard output. -/
  echo : Bool := true
  deriving DecidableEq

namespace Settings

/-- The largest limit. -/
def maxLimit : Nat :=
  UInt64.size - 1

/-- A positive decimal number within the largest limit, with or without a plus sign, blanks around it
ignored. -/
def limit? (raw : String) : Option Nat :=
  let digits := match Text.trim raw.toList with
    | '+' :: rest => rest
    | cs => cs
  if digits.isEmpty || !digits.all Char.isDigit then none
  else
    let n := digits.foldl (fun n c => n * 10 + (c.toNat - '0'.toNat)) 0
    if 0 < n ∧ n ≤ maxLimit then some n else none

def isYes (raw : String) : Bool :=
  ["1", "true", "yes"].contains (String.ofList (Text.trim raw.toList))

/-- Reads the settings from variables of the environment. -/
def ofEnv (var? : String → Option String) : Settings :=
  let defaults : Settings := {}
  let limit (name : String) (fallback : Nat) := ((var? name).bind limit?).getD fallback
  { maxStackFrames := limit "SABLE_MAX_STACK_FRAMES" defaults.maxStackFrames
    maxCallDepth := limit "SABLE_MAX_CALL_DEPTH" defaults.maxCallDepth
    echo := !((var? "SABLE_QUIET").any isYes) }

end Settings

end Sable
