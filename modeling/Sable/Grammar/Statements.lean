import Sable.Grammar.Literal

/-!
# The grammar of statements

Beside the cursor, reading statements keeps the number of loops met so far, which numbers the next
one, and the aliases declared so far, which no other alias may name. The loops around a statement
are given to its rule; the body of a function starts outside all of them.
-/

namespace Sable

/-- A loop around a statement. -/
structure Enclosing where
  id : Nat
  label : Option String
  deriving DecidableEq

structure Progress where
  cursor : Cursor
  loops : Nat := 0
  aliases : List String := []

abbrev Reader := StateT Progress (Except SyntaxError)

namespace Reader

/-- Runs a rule that only moves the cursor. -/
def onCursor {α : Type} (rule : Parser α) : Reader α := fun o =>
  match rule o.cursor with
  | .ok (a, cursor) => .ok (a, { o with cursor })
  | .error e => .error e

instance : MonadLift Parser Reader where
  monadLift := onCursor

/-- The number of the next loop. -/
def newLoop : Reader Nat := fun o =>
  .ok (o.loops + 1, { o with loops := o.loops + 1 })

def knowsAlias (name : String) : Reader Bool :=
  return name ∈ (← get).aliases

def addAlias (name : String) : Reader Unit :=
  modify fun o => { o with aliases := name :: o.aliases }

/-- The loop that a jump leaves or continues: the innermost one, or the innermost with the given
label. -/
def target (loops : List Enclosing) (label : Option Name) (span : Span) :
    Except SyntaxError Nat :=
  match loops, label with
  | [], _ => .error ⟨.outsideLoop, span⟩
  | inner :: _, none => .ok inner.id
  | _, some label =>
    match loops.find? (·.label == some label.text) with
    | some loop => .ok loop.id
    | none => .error ⟨.unknownLabel label.text, span⟩

open Sable.Parser

/-- Opens a block and gives the token that will close it. -/
def openBlock : Parser Kind := do
  if ← accept (.symbol .openBrace) then return .symbol .closeBrace
  else if ← accept .indent then return .dedent
  else unexpected "'\x7b' or an indented block"

/-- Statements up to a closing token or the end of the file, neither of which is read. -/
def statementsUntil (close : Kind) (statement : Reader Stmt) : (budget : Nat) → Reader (List Stmt)
  | 0 => return []
  | budget + 1 => do
    let next ← Parser.kind
    if next = close ∨ next = .endOfFile then return []
    else if ← accept (.symbol .semicolon) then statementsUntil close statement budget
    else
      let first ← statement
      return first :: (← statementsUntil close statement budget)

/-- A block of statements, in braces or indented. -/
def block (statement : Reader Stmt) (budget : Nat) : Reader (List Stmt) := do
  let close ← openBlock
  let body ← statementsUntil close statement budget
  let _ ← expect close
  return body

/-- Declarations up to a closing token or the end of the file, neither of which is read, with any
number of commas and semicolons between them. -/
def itemsUntil {α : Type} (close : Kind) (item : Reader α) : (budget : Nat) → Reader (List α)
  | 0 => return []
  | budget + 1 => do
    let next ← Parser.kind
    if next = close ∨ next = .endOfFile then return []
    else if next = .symbol .comma ∨ next = .symbol .semicolon then
      let _ ← Parser.next
      itemsUntil close item budget
    else
      let first ← item
      return first :: (← itemsUntil close item budget)

/-- A block of declarations with its span. -/
def itemBlock {α : Type} (item : Reader α) (budget : Nat) : Reader (List α × Span) := do
  let start := (← peek).span
  let close ← openBlock
  let items ← itemsUntil close item budget
  let last ← expect close
  return (items, start.upTo last.span)

/-- An expression, with objects in braces or without. -/
def expr (budget : Nat) (objects : Bool) : Parser Expr :=
  expression readLiteral budget objects

/-- The expression in the head of a statement with a block behind it. -/
def condition (budget : Nat) : Parser Expr :=
  expr budget false

/-- One declared variable. -/
def binding (budget : Nat) (objects : Bool) (modifier : Modifier) : Parser VarDecl := do
  let name ← identifier "a variable name"
  let type ← after (.symbol .colon) (typeExpr budget)
  let value ← after (.symbol .equals) (expr budget objects)
  if value.isNone ∧ modifier.needsValue then fail (.missingValue modifier name.text) name.span
  else return ⟨modifier, name, type, value⟩

/-- The words that declare a variable. -/
def isBinder : Kind → Bool
  | .keyword .letWord | .keyword .varWord | .keyword .constWord | .keyword .finalWord => true
  | _ => false

def modifierOf (word : Kind) (isMut : Bool) : Modifier :=
  match word with
  | .keyword .letWord => if isMut then .mutable else .final
  | .keyword .finalWord => .final
  | .keyword .constWord => .constant
  | _ => .mutable

/-- A variable that stands alone is declared on its own. -/
def declaring : List VarDecl → Stmt
  | [decl] => .varDecl decl
  | decls => .varDecls decls

/-- Declared variables with commas between them. -/
def varDecl (budget : Nat) (objects : Bool) : Parser Stmt := do
  let word := (← next).kind
  let isMut ← if word = .keyword .letWord then accept (.keyword .mutWord) else pure false
  return declaring (← commaList (binding budget objects (modifierOf word isMut)) budget)

def typeParams (budget : Nat) : Parser (List TypeParam) := do
  if ← accept (.symbol .less) then
    let param : Parser TypeParam := do
      let name ← identifier "a type parameter"
      return ⟨name, ← after (.symbol .colon) (typeExpr budget)⟩
    let params ← commaList param budget
    let _ ← expect (.symbol .greater)
    return params
  else return []

/-- The receiver at the head of a list of parameters. Its type may be given and means nothing: it is
always the struct of the method. -/
def receiver (budget : Nat) : Parser (Option Name) := do
  if ← atWord "self" then
    let name := (← next).name
    let _ ← after (.symbol .colon) (typeExpr budget)
    if (← kind) ≠ .symbol .closeParen then
      let _ ← expect (.symbol .comma)
    return some name
  else return none

def param (budget : Nat) : Parser Param := do
  let name ← identifier "a parameter name"
  let type ← after (.symbol .colon) (typeExpr budget)
  let fallback ← after (.symbol .equals) (expr budget true)
  return ⟨name, type, fallback⟩

/-- Parameters up to the closing parenthesis, which is read. -/
def params (budget : Nat) : Parser (List Param) := do
  let params ← listUntil (.symbol .closeParen) (param budget) budget
  let _ ← expect (.symbol .closeParen)
  return params

/-- A function, `statement` reading those of its body. -/
def function (statement : List Enclosing → Reader Stmt) (budget : Nat) (isMethod : Bool) :
    Reader Function := do
  let start := (← expect (.keyword .fnWord)).span
  let name ← identifier "a function name"
  let typeParams ← typeParams budget
  let _ ← expect (.symbol .openParen)
  let receiver ← if isMethod then receiver budget else pure none
  let params ← params budget
  let result ← after (.symbol .arrow) (typeExpr budget)
  let body ← block (statement []) budget
  return ⟨name, typeParams, receiver, params, result, body, start.upTo (← lastSpan)⟩

/-- A return with the value behind it, which stands on the same line. -/
def ret (budget : Nat) : Parser Stmt := do
  let start := (← next).span
  let ends := match ← kind with
    | .symbol .closeBrace | .dedent | .endOfFile | .symbol .semicolon => true
    | _ => false
  if !ends ∧ (← onSameLine) then
    let value ← expr budget true
    return .ret (some value) (start.upTo value.span)
  else return .ret none start

/-- The branches behind the first one, and the last that has no condition. -/
def elseTail (statement : Reader Stmt) (bound : Nat) :
    (budget : Nat) → Reader (List (Expr × List Stmt) × Option (List Stmt))
  | 0 => return ([], none)
  | budget + 1 => do
    if ← accept (.keyword .elseWord) then
      if ← accept (.keyword .ifWord) then
        let test ← condition bound
        let body ← block statement bound
        let (branches, otherwise) ← elseTail statement bound budget
        return ((test, body) :: branches, otherwise)
      else return ([], some (← block statement bound))
    else return ([], none)

def ifElse (statement : Reader Stmt) (budget : Nat) : Reader Stmt := do
  let _ ← expect (.keyword .ifWord)
  let test ← condition budget
  let body ← block statement budget
  let (branches, otherwise) ← elseTail statement budget budget
  return .ifElse ((test, body) :: branches) otherwise

def whileLoop (statement : List Enclosing → Reader Stmt) (budget : Nat) (loops : List Enclosing) :
    Reader Stmt := do
  let _ ← expect (.keyword .whileWord)
  let id ← newLoop
  let test ← condition budget
  let body ← block (statement (⟨id, none⟩ :: loops)) budget
  return .whileLoop id test body

/-- One or two names with the word `in` behind them come next. -/
def startsIteration : Parser Bool := do
  if (← kindAt 0) = .identifier then
    if (← kindAt 1) = .keyword .inWord then return true
    else return (← kindAt 1) = .symbol .comma ∧ (← kindAt 2) = .identifier ∧
      (← kindAt 3) = .keyword .inWord
  else return false

/-- The word `range` comes next and is not the name of something to iterate over. -/
def startsRange : Parser Bool := do
  let isName := match ← kindAt 1 with
    | .symbol .openBrace | .indent | .symbol .dot | .symbol .openBracket => true
    | _ => false
  return (← atWord "range") ∧ !isName

/-- The numbers behind the word `range`. -/
def range (budget : Nat) : Parser RangeExpr := do
  let start ← condition budget
  let inclusive ←
    if ← atWord "to" then pure false
    else if ← atWord "through" then pure true
    else unexpected "'to' or 'through'"
  let _ ← next
  let stop ← condition budget
  if ← atWord "step" then
    let _ ← next
    return ⟨start, stop, inclusive, some (← condition budget)⟩
  else return ⟨start, stop, inclusive, none⟩

/-- A loop over the elements of a value or over a range of numbers. -/
def iteration (body : Reader (List Stmt)) (budget : Nat) (id : Nat) (label : Option Name) :
    Reader Stmt := do
  let first ← identifier "a loop variable"
  let second ← after (.symbol .comma) (identifier "a loop variable")
  let (index, value) := match second with
    | some second => (some first, second)
    | none => (none, first)
  let _ ← expect (.keyword .inWord)
  if ← startsRange then
    let _ ← next
    let range ← range budget
    return .forRange id label index value range (← body)
  else
    let iterable ← condition budget
    return .forIn id label index value iterable (← body)

/-- The part of a loop head in three parts that follows its first semicolon. -/
def stepped (body : Reader (List Stmt)) (budget : Nat) (id : Nat) (label : Option Name)
    (init : Stmt) : Reader Stmt := do
  let _ ← expect (.symbol .semicolon)
  let test ← condition budget
  let _ ← expect (.symbol .semicolon)
  let update ← condition budget
  return .forLoop id label (some init) (some test) (some update) (← body)

/-- A `for` loop without a head, over values, with a condition, or with a head in three parts. -/
def forLoop (statement : List Enclosing → Reader Stmt) (budget : Nat) (loops : List Enclosing) :
    Reader Stmt := do
  let _ ← expect (.keyword .forWord)
  let labelled ← atWord "label"
  let label ←
    if labelled ∧ (← kindAt 1) = .identifier then
      let _ ← next
      pure (some (← identifier "a loop label"))
    else pure none
  let id ← newLoop
  let body := block (statement (⟨id, label.map (·.text)⟩ :: loops)) budget
  let first ← kind
  if first = .symbol .openBrace ∨ first = .indent then
    return .forLoop id label none none none (← body)
  else if ← startsIteration then iteration body budget id label
  else if isBinder first then
    let init ← varDecl budget false
    stepped body budget id label init
  else
    let test ← condition budget
    if (← kind) = .symbol .semicolon then stepped body budget id label (.expr test)
    else return .forLoop id label none (some test) none (← body)

/-- A jump to the loop that the label names. Its span starts at the word and holds the label. -/
def jumpTo (make : Nat → Option Name → Span → Stmt) (loops : List Enclosing) (start : Span)
    (label : Option Name) : Parser Stmt := do
  let span := match label with
    | some label => start.upTo label.span
    | none => start
  match target loops label span with
  | .ok id => return make id label span
  | .error e => throw e

/-- A jump with the label on its line, if there is one. -/
def jump (make : Nat → Option Name → Span → Stmt) (loops : List Enclosing) : Parser Stmt := do
  let start := (← next).span
  let label ←
    if (← kind) = .identifier ∧ (← onSameLine) then pure (some (← identifier "a loop label"))
    else pure none
  jumpTo make loops start label

def fieldDecl (budget : Nat) : Parser FieldDecl := do
  let name ← identifier "a field name"
  let optional ← accept (.symbol .question)
  let _ ← expect (.symbol .colon)
  return ⟨name, ← typeExpr budget, optional⟩

/-- The name and the type of a getter. -/
def getterHead (budget : Nat) : Parser (Name × TypeExpr) := do
  let _ ← next
  let name ← identifier "a getter name"
  let _ ← expect (.symbol .arrow)
  return (name, ← typeExpr budget)

def requirement (budget : Nat) : Parser Requirement := do
  if ← accept (.keyword .fnWord) then
    let name ← identifier "a method name"
    let _ ← expect (.symbol .openParen)
    let _ ← receiver budget
    let params ← params budget
    let result ← after (.symbol .arrow) (typeExpr budget)
    return .method name (params.map (·.type)) result
  else if ← atWord "get" then
    let (name, result) ← getterHead budget
    return .getter name result
  else unexpected "'fn' or 'get' in contract"

def structDef (budget : Nat) : Reader TypeExpr := do
  let (fields, span) ← itemBlock (onCursor (fieldDecl budget)) budget
  return .struct fields span

/-- What a type declaration says behind the name and its parameters. -/
def typeDef (budget : Nat) : Reader TypeExpr := do
  if ← accept (.keyword .structWord) then structDef budget
  else if ← accept (.keyword .contractWord) then
    let (members, span) ← itemBlock (onCursor (requirement budget)) budget
    return .contract members span
  else if ← accept (.symbol .equals) then typeExpr budget
  else
    let next ← kind
    if next = .symbol .openBrace ∨ next = .indent then structDef budget
    else unexpected "'struct', 'contract', '=' or a member block"

def typeDecl (budget : Nat) : Reader Stmt := do
  let _ ← expect (.keyword .typeWord)
  let name ← identifier "a type name"
  let params ← typeParams budget
  return .typeDecl name params (← typeDef budget)

/-- An alias, which may not name another one. -/
def aliasDecl (budget : Nat) : Reader Stmt := do
  let start := (← expect (.keyword .aliasWord)).span
  let name ← identifier "an alias name"
  let _ ← expect (.symbol .equals)
  let target ← typeExpr budget
  match target with
  | .named other =>
    if ← knowsAlias other.text then
      fail (.aliasChain name.text other.text) other.span
  | _ => pure ()
  addAlias name.text
  return .typeDecl name [] (.aliased target (start.upTo target.span))

/-- What fulfills one requirement of a contract. -/
def implementation (statement : List Enclosing → Reader Stmt) (budget : Nat) :
    Reader (Function ⊕ Getter) := do
  if (← kind) = .keyword .fnWord then return .inl (← function statement budget true)
  else if ← atWord "get" then
    let (name, result) ← getterHead budget
    return .inr ⟨name, result, ← block (statement []) budget⟩
  else unexpected "'fn' or 'get' in fulfill block"

def fulfillment (statement : List Enclosing → Reader Stmt) (budget : Nat) : Reader Stmt := do
  let _ ← expect (.keyword .fulfillWord)
  let contract ← identifier "a contract name"
  let _ ← expect (.keyword .forWord)
  let target ← identifier "a struct name"
  let (items, _) ← itemBlock (implementation statement budget) budget
  return .fulfill contract target (items.filterMap (·.getLeft?)) (items.filterMap (·.getRight?))

/-- A statement, given the rule for those inside it. -/
def statementWith (statement : List Enclosing → Reader Stmt) (budget : Nat)
    (loops : List Enclosing) : Reader Stmt := do
  let first ← kind
  match first with
  | .keyword .letWord | .keyword .varWord | .keyword .constWord | .keyword .finalWord =>
    varDecl budget true
  | .keyword .fnWord => return .function (← function statement budget false)
  | .keyword .returnWord => ret budget
  | .keyword .ifWord => ifElse (statement loops) budget
  | .keyword .whileWord => whileLoop statement budget loops
  | .keyword .forWord => forLoop statement budget loops
  | .keyword .breakWord => jump .leave loops
  | .keyword .skipWord => jump .skip loops
  | .keyword .typeWord => typeDecl budget
  | .keyword .aliasWord => aliasDecl budget
  | .keyword .fulfillWord => fulfillment statement budget
  | _ => return .expr (← expr budget true)

/-- A statement inside the given loops, innermost first. -/
def statement : (budget : Nat) → (loops : List Enclosing) → Reader Stmt
  | 0, _ => do unexpected "an expression"
  | budget + 1, loops => statementWith (statement budget) budget loops

/-- Statements up to the end of the file. -/
def program (budget : Nat) : Reader (List Stmt) :=
  statementsUntil .endOfFile (statement budget []) budget

end Reader

end Sable
