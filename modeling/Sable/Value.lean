import Sable.Program.Stmt
import Sable.Ty

/-!
# Values

Objects and arrays are shared: a value holds the address of one, and what it contains is in the
store. A function carries the scopes that were around its declaration.
-/

namespace Sable

/-- The scopes that a piece of code sees, by their addresses: its own, and those around it from the
inside out. -/
structure Env where
  here : Nat
  above : List Nat
  deriving DecidableEq, Inhabited

/-- All scopes, innermost first. -/
def Env.path (env : Env) : List Nat :=
  env.here :: env.above

/-- The functions every program has. -/
inductive Builtin where
  | print | len | typeof | str | time | trace
  deriving DecidableEq

namespace Builtin

def name : Builtin → String
  | print => "print"
  | len => "len"
  | typeof => "typeof"
  | str => "str"
  | time => "time"
  | trace => "trace"

def all : List Builtin :=
  [print, len, typeof, str, time, trace]

end Builtin

/-- A declared function and the scopes around its declaration. -/
structure Closure where
  function : Function
  env : Env

inductive Value where
  | null
  | number (x : Float)
  | text (s : String)
  | bool (b : Bool)
  | object (address : Nat)
  | array (address : Nat)
  | builtin (f : Builtin)
  | function (f : Closure)
  | type (t : Ty)
  /-- The value of a statement that has none. -/
  | nothing

instance : Inhabited Value :=
  ⟨.nothing⟩

namespace Value

/-- The name of the kind of a value. -/
def kind : Value → String
  | null => "null"
  | number _ => "number"
  | text _ => "string"
  | bool _ => "boolean"
  | object _ => "object"
  | array _ => "array"
  | builtin _ => "nativefn"
  | function _ => "function"
  | type _ => "type"
  | nothing => "placeholder"

/-- Whether a condition with this value holds. -/
def truthy : Value → Bool
  | null | nothing => false
  | bool b => b
  | number x => x != 0.0
  | text s => !s.isEmpty
  | _ => true

def isNull : Value → Bool
  | null => true
  | _ => false

end Value

end Sable
