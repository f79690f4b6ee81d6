import Sable.Program

/-!
# Parts of rules

What some rules of the grammar continue with behind a choice in their middle, under a name of its own:
`Parser.plainName`, `Reader.bindings`, `Reader.loopHead` and others.
-/

namespace Sable

namespace Parser

/-- A name without type arguments: a struct with its properties if a brace comes second, or a
variable. -/
def plainName (nested : Bool → Parser Expr) (budget : Nat) (objects : Bool) (second : Kind) :
    Parser Expr := do
  let name ← identifier "a struct name"
  if objects ∧ second = .symbol .openBrace then objectBody nested budget (some name) [] name.span
  else return .var name

end Parser

namespace Reader

open Sable.Parser

/-- The variables behind the word that declares them. -/
def bindings (budget : Nat) (objects : Bool) (modifier : Modifier) : Parser Stmt := do
  return declaring (← commaList (binding budget objects modifier) budget)

def typeParam (budget : Nat) : Parser TypeParam := do
  let name ← identifier "a type parameter"
  return ⟨name, ← after (.symbol .colon) (typeExpr budget)⟩

/-- A range in front of the word that its last number follows. -/
def rangeFrom (budget : Nat) (start : Expr) (inclusive : Bool) : Parser RangeExpr := do
  let _ ← next
  let stop ← condition budget
  if ← atWord "step" then
    let _ ← next
    return ⟨start, stop, inclusive, some (← condition budget)⟩
  else return ⟨start, stop, inclusive, none⟩

/-- The end of the declaration of an alias. -/
def aliasOf (name : Name) (target : TypeExpr) (span : Span) : Reader Stmt := do
  addAlias name.text
  return .typeDecl name [] (.aliased target span)

/-- A function behind its receiver. -/
def functionFrom (rule : List Enclosing → Reader Stmt) (budget : Nat) (start : Span) (name : Name)
    (typeParams : List TypeParam) (receiver : Option Name) : Reader Function := do
  let params ← params budget
  let result ← after (.symbol .arrow) (typeExpr budget)
  let body ← block (rule []) budget
  return ⟨name, typeParams, receiver, params, result, body, start.upTo (← lastSpan)⟩

/-- The word `label` comes next, and a name behind it. -/
def startsLabel : Parser Bool := do
  let labelled ← atWord "label"
  return labelled ∧ (← kindAt 1) = .identifier

theorem startsLabel_eq (c : Cursor) : startsLabel c =
    .ok (decide (c.here.isWord "label" ∧ c.kindAt 1 = .identifier), c) := rfl

/-- A `for` loop that begins with a condition. -/
def testedLoop (body : Reader (List Stmt)) (budget : Nat) (id : Nat) (label : Option Name) :
    Reader Stmt := do
  let test ← condition budget
  if (← kind) = .symbol .semicolon then stepped body budget id label (.expr test)
  else return .forLoop id label none (some test) none (← body)

/-- A `for` loop behind its label. -/
def loopHead (rule : List Enclosing → Reader Stmt) (budget : Nat) (loops : List Enclosing)
    (label : Option Name) : Reader Stmt := do
  let id ← newLoop
  let body := block (rule (⟨id, label.map (·.text)⟩ :: loops)) budget
  let first ← kind
  if first = .symbol .openBrace ∨ first = .indent then
    return .forLoop id label none none none (← body)
  else if ← startsIteration then iteration body budget id label
  else if isBinder first then
    let init ← varDecl budget false
    stepped body budget id label init
  else testedLoop body budget id label

theorem forLoop_eq (rule : List Enclosing → Reader Stmt) (budget : Nat) (loops : List Enclosing) :
    forLoop rule budget loops = (do
      let _ ← expect (.keyword .forWord)
      if ← startsLabel then
        let _ ← next
        loopHead rule budget loops (some (← identifier "a loop label"))
      else loopHead rule budget loops none) := by
  refine bind_congr fun t => funext fun o => ?_
  by_cases hlabel : o.cursor.here.isWord "label" ∧ o.cursor.kindAt 1 = .identifier
  · refine Eq.trans (congrFun (if_pos hlabel) o) (Eq.symm ?_)
    exact congrFun (if_pos (decide_eq_true hlabel)) o
  · refine Eq.trans (congrFun (if_neg hlabel) o) (Eq.symm ?_)
    exact congrFun (if_neg (of_decide_eq_false (by simpa using hlabel))) o

end Reader

end Sable
