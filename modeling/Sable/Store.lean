import Sable.Assoc
import Sable.Value

/-!
# The store

Scopes, objects and arrays by address. Nothing is ever removed: new addresses are handed out at the
end, and what stands at an address is changed in place.
-/

namespace Sable

/-- What a name stands for in a scope. -/
structure Binding where
  value : Value
  modifier : Modifier
  /-- The declared type, or the type of the first value other than null. -/
  type : Option Ty

structure Scope where
  vars : List (String × Binding) := []
  types : List (String × Ty) := []
  /-- Methods by struct and name. -/
  methods : List ((String × String) × Value) := []
  /-- Getters by struct and name. -/
  getters : List ((String × String) × Value) := []
  /-- Structs with the contracts they fulfill. -/
  fulfillments : List (String × String) := []

instance : Inhabited Scope :=
  ⟨{}⟩

/-- An object, an instance of a struct if it has a tag. -/
structure Obj where
  tag : Option String
  typeArgs : List Ty
  properties : List (String × Value)

instance : Inhabited Obj :=
  ⟨⟨none, [], []⟩⟩

structure Store where
  scopes : Array Scope := #[]
  objects : Array Obj := #[]
  arrays : Array (Array Value) := #[]

namespace Store

def scope (s : Store) (address : Nat) : Scope :=
  s.scopes.getD address {}

def object (s : Store) (address : Nat) : Obj :=
  s.objects.getD address default

def array (s : Store) (address : Nat) : Array Value :=
  s.arrays.getD address #[]

/-- A new scope with nothing around it. -/
def newRoot (s : Store) : Env × Store :=
  (⟨s.scopes.size, []⟩, { s with scopes := s.scopes.push {} })

/-- A new scope inside another. -/
def newScope (s : Store) (env : Env) : Env × Store :=
  (⟨s.scopes.size, env.path⟩, { s with scopes := s.scopes.push {} })

def newObject (s : Store) (o : Obj) : Value × Store :=
  (.object s.objects.size, { s with objects := s.objects.push o })

def newArray (s : Store) (items : Array Value) : Value × Store :=
  (.array s.arrays.size, { s with arrays := s.arrays.push items })

def modifyScope (s : Store) (address : Nat) (f : Scope → Scope) : Store :=
  { s with scopes := s.scopes.modify address f }

/-- Gives a property of an object a value. -/
def setProperty (s : Store) (address : Nat) (name : String) (v : Value) : Store :=
  { s with objects := s.objects.modify address fun o =>
      { o with properties := Assoc.set name v o.properties } }

/-- Gives an element of an array a value. -/
def setElement (s : Store) (address : Nat) (slot : Nat) (v : Value) : Store :=
  { s with arrays := s.arrays.modify address fun items => items.setIfInBounds slot v }

/-- The innermost scope that binds a name. -/
def owner? (s : Store) (env : Env) (name : String) : Option Nat :=
  env.path.find? fun a => ((s.scope a).vars.lookup name).isSome

/-- What a name stands for. -/
def binding? (s : Store) (env : Env) (name : String) : Option Binding :=
  env.path.findSome? fun a => (s.scope a).vars.lookup name

/-- The declared type of a name. -/
def type? (s : Store) (env : Env) (name : String) : Option Ty :=
  env.path.findSome? fun a => (s.scope a).types.lookup name

def method? (s : Store) (env : Env) (struct name : String) : Option Value :=
  env.path.findSome? fun a => (s.scope a).methods.lookup (struct, name)

def getter? (s : Store) (env : Env) (struct name : String) : Option Value :=
  env.path.findSome? fun a => (s.scope a).getters.lookup (struct, name)

def fulfills (s : Store) (env : Env) (struct contract : String) : Bool :=
  env.path.any fun a => (s.scope a).fulfillments.contains (struct, contract)

/-- Gives a type a name, whatever the name stood for. -/
def setType (s : Store) (env : Env) (name : String) (type : Ty) : Store :=
  s.modifyScope env.here fun scope => { scope with types := Assoc.set name type scope.types }

def addMethod (s : Store) (env : Env) (struct name : String) (f : Value) : Store :=
  s.modifyScope env.here fun scope =>
    { scope with methods := Assoc.set (struct, name) f scope.methods }

def addGetter (s : Store) (env : Env) (struct name : String) (f : Value) : Store :=
  s.modifyScope env.here fun scope =>
    { scope with getters := Assoc.set (struct, name) f scope.getters }

def addFulfillment (s : Store) (env : Env) (struct contract : String) : Store :=
  s.modifyScope env.here fun scope =>
    if scope.fulfillments.contains (struct, contract) then scope
    else { scope with fulfillments := (struct, contract) :: scope.fulfillments }

/-- Binds a name to a value that cannot change, whatever the name stood for. A type recorded for it
stays. -/
def setConstant (s : Store) (env : Env) (name : String) (v : Value) : Store :=
  s.modifyScope env.here fun scope =>
    let type := (scope.vars.lookup name).bind (·.type)
    { scope with vars := Assoc.set name ⟨v, .constant, type⟩ scope.vars }

end Store

end Sable
