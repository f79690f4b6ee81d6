import Sable.Assoc
import Sable.Command
import Sable.Context
import Sable.Eval
import Sable.Eval.Builtins
import Sable.Eval.Calls
import Sable.Eval.Declarations
import Sable.Eval.Inner
import Sable.Eval.Loops
import Sable.Eval.Machine
import Sable.Eval.Objects
import Sable.Eval.Operators
import Sable.Eval.Templates
import Sable.Fault
import Sable.FileError
import Sable.Grammar.Cursor
import Sable.Grammar.Expressions
import Sable.Grammar.Literal
import Sable.Grammar.Statements
import Sable.Grammar.SyntaxError
import Sable.Grammar.Template
import Sable.Grammar.Types
import Sable.Main
import Sable.Number.Binary
import Sable.Number.Decimal
import Sable.Number.Format
import Sable.Number.Shortest
import Sable.Program
import Sable.Program.Expr
import Sable.Program.Stmt
import Sable.Program.Tree
import Sable.Program.TypeExpr
import Sable.Proofs.Braces.Blocked
import Sable.Proofs.Braces.Expressions
import Sable.Proofs.Braces.Statements
import Sable.Proofs.Braces.Types
import Sable.Proofs.Calls.Limit
import Sable.Proofs.Calls.Progress
import Sable.Proofs.Contracts.Fulfilled
import Sable.Proofs.Contracts.Registered
import Sable.Proofs.Diagnostics.Sources
import Sable.Proofs.Forms.Expressions
import Sable.Proofs.Forms.Faults
import Sable.Proofs.Forms.Rules
import Sable.Proofs.Forms.Runs
import Sable.Proofs.Forms.Statements
import Sable.Proofs.Forms.Syntax
import Sable.Proofs.Joining.Blocks
import Sable.Proofs.Joining.Expressions
import Sable.Proofs.Joining.Programs
import Sable.Proofs.Joining.Statements
import Sable.Proofs.Joining.Syntax
import Sable.Proofs.Joining.Tokens
import Sable.Proofs.Jumps.Escapes
import Sable.Proofs.Jumps.Reading
import Sable.Proofs.Jumps.Runs
import Sable.Proofs.Jumps.Syntax
import Sable.Proofs.Layout.Balance
import Sable.Proofs.Layout.Erasure
import Sable.Proofs.Layout.Marks
import Sable.Proofs.Layout.Trivia
import Sable.Proofs.Loops.Equivalence
import Sable.Proofs.Loops.Expressions
import Sable.Proofs.Loops.Ranges
import Sable.Proofs.Loops.Readings
import Sable.Proofs.Loops.Simulation
import Sable.Proofs.Loops.Statements
import Sable.Proofs.Loops.Twins
import Sable.Proofs.Numbers.Unpacked
import Sable.Proofs.Numbers.Whole
import Sable.Proofs.Printing.Annotations
import Sable.Proofs.Printing.Binding
import Sable.Proofs.Printing.Formulas
import Sable.Proofs.Printing.Levels
import Sable.Proofs.Printing.Regrouping
import Sable.Proofs.Printing.Rereading
import Sable.Proofs.Printing.Restoring
import Sable.Proofs.Printing.Spelling
import Sable.Proofs.Reading.Expressions
import Sable.Proofs.Reading.Parts
import Sable.Proofs.Reading.Statements
import Sable.Proofs.Reading.Tokens
import Sable.Proofs.Runs.Chronicles
import Sable.Proofs.Runs.Code
import Sable.Proofs.Runs.Declarations
import Sable.Proofs.Runs.Expressions
import Sable.Proofs.Runs.Faults
import Sable.Proofs.Runs.Moments
import Sable.Proofs.Runs.Sessions
import Sable.Proofs.Runs.Stacks
import Sable.Proofs.Runs.Statements
import Sable.Proofs.Runs.Traces
import Sable.Proofs.Scanning.Blanks
import Sable.Proofs.Scanning.LineEnds
import Sable.Proofs.Scanning.Lines
import Sable.Proofs.Scanning.Longest
import Sable.Proofs.Scanning.Places
import Sable.Proofs.Scanning.Tiling
import Sable.Proofs.Spans.Expressions
import Sable.Proofs.Spans.Frames
import Sable.Proofs.Spans.Names
import Sable.Proofs.Spans.Statements
import Sable.Proofs.Spans.Syntax
import Sable.Proofs.Store.Growth
import Sable.Proofs.Store.Scopes
import Sable.Proofs.Store.Scoping
import Sable.Proofs.Templates.Filling
import Sable.Proofs.Templates.Literals
import Sable.Proofs.Templates.Pieces
import Sable.Proofs.Templates.Reading
import Sable.Proofs.Templates.Splitting
import Sable.Proofs.Termination.Expressions
import Sable.Proofs.Termination.Rules
import Sable.Proofs.Termination.Sources
import Sable.Proofs.Termination.Statements
import Sable.Proofs.Types.Aliases
import Sable.Proofs.Types.Chains
import Sable.Proofs.Types.Equality
import Sable.Proofs.Types.Reflexivity
import Sable.Proofs.Types.Substitution
import Sable.Proofs.Types.Texts
import Sable.Proofs.Values.Agreement
import Sable.Proofs.Values.Arising
import Sable.Proofs.Values.Assignments
import Sable.Proofs.Values.Checks
import Sable.Proofs.Values.Instances
import Sable.Proofs.Values.Members
import Sable.Proofs.Values.Nesting
import Sable.Proofs.Values.OwnTypes
import Sable.Proofs.Values.Populated
import Sable.Proofs.Values.Unfolding
import Sable.Proofs.Values.Writes
import Sable.Session
import Sable.Settings
import Sable.Span
import Sable.Store
import Sable.Store.Accepts
import Sable.Store.Bindings
import Sable.Store.Contracts
import Sable.Store.Render
import Sable.Store.TypeOf
import Sable.Store.Types
import Sable.Text.Alphabetic
import Sable.Text.Blank
import Sable.Text.CharSet
import Sable.Text.Extender
import Sable.Text.Lines
import Sable.Text.Numeric
import Sable.Text.Quoted
import Sable.Text.Unprintable
import Sable.Text.Word
import Sable.Token
import Sable.Token.Kind
import Sable.Token.Layout
import Sable.Token.LexError
import Sable.Token.Lexeme
import Sable.Token.Scan
import Sable.Ty
import Sable.Ty.Fits
import Sable.Ty.Subst
import Sable.Value
