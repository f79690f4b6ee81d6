/-!
# Decimal literals

A number in a program is a run of digits, or two runs with a point between them. It is kept exactly
as written up to leading zeros and turned into a double only when it is evaluated.
-/

namespace Sable.Number

/-- The number `digits / 10 ^ places`. -/
structure Decimal where
  digits : Nat
  places : Nat
  deriving DecidableEq, Inhabited

namespace Decimal

/-- The value of a run of decimal digits. -/
def ofDigits (cs : List Char) : Nat :=
  cs.foldl (fun n c => n * 10 + (c.toNat - '0'.toNat)) 0

def allDigits (cs : List Char) : Bool :=
  !cs.isEmpty && cs.all Char.isDigit

/-- Reads digits, or digits with a point among them. -/
def ofText? (text : String) : Option Decimal :=
  let whole := text.toList.takeWhile (· != '.')
  match text.toList.dropWhile (· != '.') with
  | [] => if allDigits whole then some ⟨ofDigits whole, 0⟩ else none
  | _ :: part =>
    if allDigits whole && allDigits part then some ⟨ofDigits (whole ++ part), part.length⟩ else none

/-- The nearest double. -/
def toFloat (d : Decimal) : Float :=
  Float.ofScientific d.digits true d.places

end Decimal

end Sable.Number
