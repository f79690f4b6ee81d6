import Sable.Command
import Std.Time.DateTime.Timestamp

/-!
# The program

Reads files, lines and the environment, and prints what the command line answers.
-/

namespace Sable.Main

/-- The number of a system error, which may be handed over with its sign changed. -/
def errorNumber (code : UInt32) : Nat :=
  if code < 0x80000000 then code.toNat else (0 - code).toNat

/-- The number that an error of the system carries. -/
def number? : IO.Error → Option Nat
  | .noFileOrDirectory _ code _ | .permissionDenied _ code _ | .inappropriateType _ code _
  | .invalidArgument _ code _ | .resourceExhausted _ code _ | .illegalOperation code _
  | .otherError code _ => some (errorNumber code)
  | _ => none

/-- Why a file cannot be read. -/
def fileError (e : IO.Error) : FileError :=
  ((number? e).bind FileError.ofNumber?).getD (.other (toString e))

def contents (path : String) : IO (Except FileError String) := do
  try
    match String.fromUTF8? (← IO.FS.readBinFile path) with
    | some source => return .ok source
    | none => return .error .notText
  catch e => return .error (fileError e)

def surroundings : IO Surroundings := do
  let names := ["SABLE_MAX_STACK_FRAMES", "SABLE_MAX_CALL_DEPTH", "SABLE_QUIET"]
  let vars ← names.filterMapM fun name => return (← IO.getEnv name).map (name, ·)
  let now ← Std.Time.Timestamp.now
  return ⟨Settings.ofEnv (List.lookup · vars),
    fun _ => Float.ofInt now.toMillisecondsSinceUnixEpoch.val⟩

def write (t : Transcript) : IO Unit := do
  IO.print t.out
  (← IO.getStdout).flush
  for complaint in t.err do
    IO.eprintln complaint.render

/-- The next line of the standard input, without its end. -/
def nextLine? : IO (Option String) := do
  let raw ← (← IO.getStdin).getLine
  return (Text.lines raw).head?

/-- Answers line after line. -/
partial def converse (d : Repl.Dialog) : IO UInt32 := do
  let line ← nextLine?
  let (next, t) := Repl.step (← surroundings) d {} line
  write t
  match next with
  | some d => converse d
  | none => return 0

/-- Answers a request about files. -/
def answer (args : List String) : IO UInt32 := do
  let source ← match Command.Request.ofArgs args with
    | .file _ path => contents path
    | _ => pure (.ok "")
  let (code, t) := Command.answer (← surroundings) (fun _ => source) "" args
  write t
  return code.toUInt32

end Sable.Main

def main (args : List String) : IO UInt32 :=
  match Sable.Command.Request.ofArgs args with
  | .repl => do
    Sable.Main.write (Sable.Transcript.ask {})
    Sable.Main.converse {}
  | _ => Sable.Main.answer args
