import Sable.Eval.Calls
import Sable.Number.Binary

/-!
# Objects, arrays and their members
-/

namespace Sable

namespace Expr

/-- The path of an access for messages, without the keys in brackets. -/
def path : Expr → String
  | var name => name.text
  | field base name _ => path base ++ "." ++ name.text
  | member base _ _ _ => path base ++ "[]"
  | other => other.form

/-- The variable at the root of an access. -/
def root? : Expr → Option String
  | var name => some name.text
  | member base _ _ _ => root? base
  | _ => none

/-- The name that stands behind a dot. -/
def propertyName : Expr → Except Fault String
  | var name => .ok name.text
  | other => .error (.notAName other.form)

end Expr

namespace Store

/-- The members of the struct that a tag names at this place. -/
def structMembers? (s : Store) (env : Env) (tag : String) : Option (List Bound × List Member) :=
  match (s.type? env tag).map Ty.unaliased with
  | some (.struct _ params members) => some (params, members)
  | _ => none

/-- A field of an instance has to be declared and to keep its type. -/
def checkField (s : Store) (env : Env) (o : Obj) (field : String) (v : Value) :
    Except Fault Unit :=
  match o.tag with
  | none => .ok ()
  | some tag =>
    match s.structMembers? env tag with
    | none => .ok ()
    | some (params, members) =>
      match Member.find? members field with
      | none => .error (.unknownField field tag)
      | some member =>
        let expected := member.type.subst (.ofArgs params o.typeArgs)
        if s.accepts env expected v then .ok ()
        else .error (.fieldMismatch field tag expected (s.typeOf v))

end Store

namespace Inner

variable {ω : Type} [Observer ω]

/-- A property of a value: its own, then that of a getter of its struct, and null where the struct
declares it as optional. Texts and arrays have a length. -/
def readProperty (cfg : Config) (inner : Inner ω) (env : Env) (object : Value) (name : String)
    (span : Span) : Eval ω Value :=
  match object with
  | .object a => do
    let o ← Eval.ask (·.object a)
    match o.properties.lookup name, o.tag with
    | some v, _ => return v
    | none, none => Eval.raise (.unknownProperty name "object")
    | none, some tag =>
      match ← Eval.ask (·.getter? env tag name) with
      | some getter => inner.callValue cfg getter [] (some object) span
      | none =>
        let members ← Eval.ask (·.structMembers? env tag)
        let member := members.bind fun (_, members) => Member.find? members name
        if member.any (·.optional) then return .null
        else Eval.raise (.unknownProperty name tag)
  | .array a =>
    if name == "length" then do
      return .number (Float.ofNat (← Eval.ask fun store => (store.array a).size))
    else Eval.raise (.invalidMember name object.kind)
  | .text s =>
    if name == "length" then return .number (Float.ofNat s.length)
    else Eval.raise (.invalidMember name object.kind)
  | _ => Eval.raise (.invalidMember name object.kind)

/-- An element by its number, a character by its number, or a property by its name. -/
def readIndex (cfg : Config) (inner : Inner ω) (env : Env) (object key : Value) (path : String)
    (span : Span) : Eval ω Value :=
  match object, key with
  | .array a, .number x => do
    let items ← Eval.ask (·.array a)
    match (Number.slot? x items.size).bind (items[·]?) with
    | some v => return v
    | none => Eval.raise (.indexOutOfBounds x path)
  | .text s, .number x =>
    match (Number.slot? x s.length).bind (s.toList[·]?) with
    | some c => return .text (String.singleton c)
    | none => Eval.raise (.indexOutOfBounds x path)
  | .array _, _ | .text _, _ => Eval.raise .nonNumericIndex
  | .object _, .text name => inner.readProperty cfg env object name span
  | other, key => do
    let shown ← Eval.ask (·.render key)
    Eval.raise (.invalidMember shown other.kind)

/-- Gives a member of a container a value. -/
def writeMember (env : Env) (container key v : Value) (path : String) : Eval ω Unit :=
  match container, key with
  | .object a, .text field => do
    Eval.query fun store => store.checkField env (store.object a) field v
    Eval.change (·.setProperty a field v) (.wrote env a field v)
  | .array a, .number x => do
    match Number.slot? x (← Eval.ask fun store => (store.array a).size) with
    | some slot => Eval.change (·.setElement a slot v)
    | none => Eval.raise (.indexOutOfBounds x path)
  | .array _, _ => Eval.raise .nonNumericIndex
  | other, key => do
    let shown ← Eval.ask (·.render key)
    Eval.raise (.invalidMember shown other.kind)

/-- The key of a member that is given a value. -/
def memberKey (inner : Inner ω) (env : Env) (computed : Bool) (property : Expr) : Eval ω Value := do
  if computed then inner.expr env property
  else return .text (← Eval.query fun _ => property.propertyName)

/-- Assigns to a member of `object`, whose root variable has to be one that can change. -/
def assignMember (inner : Inner ω) (env : Env) (object : Expr) (key : Eval ω Value) (value : Expr) :
    Eval ω Value :=
  match object.root? with
  | none => Eval.raise (.invalidTarget object.path)
  | some root => do
    Eval.query fun store => store.checkMutable env root
    let container ← inner.expr env object
    let key ← key
    let v ← inner.expr env value
    writeMember env container key v object.path
    return v

/-- The value of a property in an object literal. -/
def property (inner : Inner ω) (env : Env) (name : Name) : Option Expr → Eval ω Value
  | some e => inner.expr env e
  | none => Eval.query fun store => store.lookup env name.text

/-- The properties of an anonymous object, in order. -/
def anonymous (inner : Inner ω) (env : Env) :
    List (Name × Option Expr) → Eval ω (List (String × Value))
  | [] => return []
  | (name, e) :: rest => do
    let v ← inner.property env name e
    return (name.text, v) :: (← inner.anonymous env rest)

/-- The properties of an instance, in the order of the members of its struct. -/
def fields (inner : Inner ω) (env : Env) (struct : String) (subst : Subst)
    (given : List (Name × Option Expr)) : List Member → Eval ω (List (String × Value))
  | [] => return []
  | member :: rest => do
    match given.find? (·.1.text == member.name) with
    | none =>
      if member.optional then inner.fields env struct subst given rest
      else Eval.raise (.missingField member.name struct)
    | some (name, e) =>
      let v ← inner.property env name e
      let expected := member.type.subst subst
      Eval.demand env expected v (.fieldMismatch member.name struct expected)
      return (member.name, v) :: (← inner.fields env struct subst given rest)

/-- A new instance. What is given has to be declared. -/
def construct (inner : Inner ω) (env : Env) (struct tag : String) (params : List Bound)
    (args : List Ty) (given : List (Name × Option Expr)) (members : List Member) :
    Eval ω Value := do
  let properties ← inner.fields env struct (.ofArgs params args) given members
  match given.find? fun p => (Member.find? members p.1.text).isNone with
  | some extra => Eval.raise (.unknownField extra.1.text struct)
  | none => Eval.create (·.newObject ⟨some tag, args, properties⟩) (.made · params members)

/-- An instance of a struct. -/
def instantiate (inner : Inner ω) (env : Env) (struct : String) (typeArgs : List TypeExpr)
    (given : List (Name × Option Expr)) : Eval ω Value := do
  match ← Eval.ask fun store => (store.type? env struct).map Ty.unaliased with
  | none => Eval.raise (.unresolvedType struct)
  | some (.struct tag params members) =>
    let args ← Eval.resolve typeArgs fun store => store.evalTypes env [] typeArgs
    unless args.isEmpty do
      Eval.query fun _ => Store.checkTypeArgs tag params args
    inner.construct env struct tag params args given members
  | some _ => Eval.raise (.notAStruct struct)

/-- The value of an object literal. -/
def object (inner : Inner ω) (env : Env) (struct : Option Name) (typeArgs : List TypeExpr)
    (given : List (Name × Option Expr)) : Eval ω Value :=
  match struct with
  | some struct => inner.instantiate env struct.text typeArgs given
  | none => do
    let properties ← inner.anonymous env given
    Eval.create (·.newObject ⟨none, [], properties⟩)

end Inner

end Sable
