import Sable.Number.Binary
import Sable.Number.Format
import Sable.Value

/-!
# Operators

Operators are defined on numbers, truth values and texts, and on a text beside a number or truth
value where they join them. Anywhere else the result is null.
-/

namespace Sable

def BinaryOp.onNumbers (op : BinaryOp) (a b : Float) : Value :=
  match op with
  | add => .number (a + b)
  | sub => .number (a - b)
  | mul => .number (a * b)
  | div => .number (a / b)
  | mod => .number (Number.rem a b)
  | pow => .number (a ^ b)
  | eq => .bool (a == b)
  | notEq => .bool (a != b)
  | lt => .bool (a < b)
  | gt => .bool (b < a)
  | ltEq => .bool (a ≤ b)
  | gtEq => .bool (b ≤ a)
  | and | or => .null

def BinaryOp.onBools (op : BinaryOp) (a b : Bool) : Value :=
  match op with
  | and => .bool (a && b)
  | or => .bool (a || b)
  | eq => .bool (a == b)
  | notEq => .bool (a != b)
  | _ => .null

def BinaryOp.onTexts (op : BinaryOp) (a b : String) : Value :=
  match op with
  | add => .text (a ++ b)
  | eq => .bool (a == b)
  | notEq => .bool (a != b)
  | _ => .null

/-- A number or truth value as it is joined to a text. -/
def Value.joined? : Value → Option String
  | .number x => some (Number.plain x)
  | .bool b => some (if b then "true" else "false")
  | _ => none

def BinaryOp.apply (op : BinaryOp) (left right : Value) : Value :=
  match left, right with
  | .number a, .number b => op.onNumbers a b
  | .bool a, .bool b => op.onBools a b
  | .text a, .text b => op.onTexts a b
  | .text a, other =>
    match op, other.joined? with
    | .add, some b => .text (a ++ b)
    | _, _ => .null
  | other, .text b =>
    match op, other.joined? with
    | .add, some a => .text (a ++ b)
    | _, _ => .null
  | _, _ => .null

def UnaryOp.apply (op : UnaryOp) (operand : Value) : Value :=
  match op, operand with
  | .negate, .number x => .number (-x)
  | .not, .bool b => .bool (!b)
  | _, _ => .null

end Sable
