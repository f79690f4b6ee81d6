import Sable.FileError
import Sable.Program.Tree
import Sable.Session
import Sable.Text.Blank
import Sable.Text.Lines

/-!
# The command line

What each command does with the files and lines it is given, up to reading and printing them.
-/

namespace Sable

/-- Something written to the standard error. -/
inductive Complaint where
  | text (message : String)
  /-- A report on a source that is no program. -/
  | source (file source : String) (error : SourceError)

/-- A complaint as the text to show. A report names the bytes of the source that it is about. -/
def Complaint.render : Complaint → String
  | text message => message
  | source file _ error =>
    let (start, width) := error.bytes
    let help := match error.help with
      | some help => "\n  help: " ++ help
      | none => ""
    s!"{error.message file}\n  {error.label}: {file}, bytes {start} to {start + width}" ++ help

/-- What a command has written. -/
structure Transcript where
  out : String := ""
  err : List Complaint := []

namespace Transcript

def line (t : Transcript) (s : String) : Transcript :=
  { t with out := t.out ++ s ++ "\n" }

def complain (t : Transcript) (c : Complaint) : Transcript :=
  { t with err := t.err ++ [c] }

/-- The prompt, behind which a line is entered. -/
def ask (t : Transcript) : Transcript :=
  { t with out := t.out ++ "> " }

/-- A fault with the trace of the calls it came from. -/
def fault (t : Transcript) (fault : Fault) (trace : Option String) : Transcript :=
  let t := t.complain (.text s!"Runtime error: {fault.message}")
  match trace with
  | some trace => if trace.isEmpty then t else t.complain (.text trace)
  | none => t

end Transcript

/-- The surroundings of a command: its settings, and the time at each reading of the clock. -/
structure Surroundings where
  settings : Settings
  clock : Nat → Float

namespace Command

def usage : String :=
  "Usage: sable [run|ast] <filename.sbl>\n       sable repl"

/-- Runs a program in a session and writes what it prints. There is no result if it does not end. -/
def runIn (around : Surroundings) (s : Session) (file : String) (p : Program) (t : Transcript) :
    Option (Except Fault Value) × Session × Transcript :=
  let before := s.context.output.size
  match s.run ⟨file, around.settings, around.clock⟩ Session.ample p with
  | none => (none, s, t)
  | some (result, s) =>
    let printed := s.context.output.toList.drop before
    (some result, s, if around.settings.echo then printed.foldl Transcript.line t else t)

/-- Runs a file. -/
def runFile (around : Surroundings) (file source : String) : Nat × Transcript :=
  match Program.parse file source with
  | .error e => (1, Transcript.complain {} (.source file source e))
  | .ok p =>
    match runIn around .start file p {} with
    | (some (.error fault), s, t) => (1, t.fault fault s.context.failure)
    | (_, _, t) => (0, t)

/-- Writes a file out as a tree. -/
def outlineFile (file source : String) : Nat × Transcript :=
  match Program.parse file source with
  | .error e => (1, Transcript.complain {} (.source file source e))
  | .ok p => (0, Transcript.line {} p.outline)

/-- What the arguments ask for. -/
inductive Request where
  | repl
  | file (mode path : String)
  | badExtension
  | help

def Request.ofArgs : List String → Request
  | ["repl"] => repl
  | [mode, path] => if path.endsWith ".sbl" then file mode path else badExtension
  | _ => help

/-- Answers a request about a file, given its contents or why they cannot be had. -/
def answerFile (around : Surroundings) (mode path : String) :
    Except FileError String → Nat × Transcript
  | .error e => (1, Transcript.complain {} (.text s!"Failed to access {path}: {e.message}"))
  | .ok source =>
    if mode == "run" then runFile around path source
    else if mode == "ast" then outlineFile path source
    else (1, Transcript.complain {} (.text usage))

end Command

namespace Repl

def file : String :=
  "<repl>"

/-- What a line at the prompt asks for. -/
inductive Entry where
  | blank
  | quit
  | single
  /-- The line opens a block, which goes on up to a blank line. -/
  | opening

def Entry.ofLine (line : String) : Entry :=
  let trimmed := Text.trim line.toList
  if trimmed.isEmpty then blank
  else if trimmed = "exit".toList ∨ trimmed = "quit".toList then quit
  else
    match trimmed.getLast? with
    | some ':' | some '\x7b' => opening
    | _ => single

/-- Reads and runs what was entered. Null and nothing are not shown. -/
def enter (around : Surroundings) (s : Session) (source : String) (t : Transcript) :
    Session × Transcript :=
  match Program.parse file source with
  | .error e => (s, t.complain (.source file source e))
  | .ok p =>
    match Command.runIn around s file p t with
    | (none, s, t) => (s, t)
    | (some (.error fault), s, t) => (s, t.fault fault s.context.failure)
    | (some (.ok .nothing), s, t) | (some (.ok .null), s, t) => (s, t)
    | (some (.ok v), s, t) => (s, t.line (s.store.render v))

/-- A conversation: its session, and the lines of a block that is being entered, the last one first. -/
structure Dialog where
  session : Session := .start
  block : Option (List String) := none

/-- Runs what was entered and asks for the next line. -/
def respond (around : Surroundings) (s : Session) (source : String) (t : Transcript) :
    Dialog × Transcript :=
  let (s, t) := enter around s source t
  (⟨s, none⟩, t.ask)

/-- Takes a line of a conversation, or the end of its input. The conversation may be over then. -/
def step (around : Surroundings) (d : Dialog) (t : Transcript) :
    Option String → Option Dialog × Transcript
  | some line =>
    match d.block with
    | none =>
      match Entry.ofLine line with
      | .blank => (some d, t.ask)
      | .quit => (none, t)
      | .single =>
        let (d, t) := respond around d.session line t
        (some d, t)
      | .opening => (some { d with block := some [line] }, t)
    | some lines =>
      if Text.allBlank line.toList then
        let (d, t) := respond around d.session ("\n".intercalate lines.reverse) t
        (some d, t)
      else (some { d with block := some (line :: lines) }, t)
  | none =>
    match d.block with
    | none => (none, t)
    | some lines => (none, (respond around d.session ("\n".intercalate lines.reverse) t).2)

/-- Goes through the lines of a conversation, up to the one that ends it. -/
def converse (around : Surroundings) (d : Dialog) (t : Transcript) : List String → Transcript
  | [] => (step around d t none).2
  | line :: rest =>
    match step around d t (some line) with
    | (none, t) => t
    | (some d, t) => converse around d t rest

end Repl

/-- Answers the arguments of the command line, given how to read a file and the standard input. -/
def Command.answer (around : Surroundings) (readFile : String → Except FileError String)
    (input : String) (args : List String) : Nat × Transcript :=
  match Request.ofArgs args with
  | .repl => (0, Repl.converse around {} (Transcript.ask {}) (Text.lines input))
  | .file mode path => answerFile around mode path (readFile path)
  | .badExtension =>
    (1, Transcript.complain {} (.text "Invalid file extension. Only .sbl files are allowed."))
  | .help => (1, Transcript.complain {} (.text usage))

end Sable
