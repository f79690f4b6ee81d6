/-!
# Doubles as binary fractions

A finite double is a whole number times a power of two, with a sign. The parts are read off the
bits of its encoding, and a remainder is computed on them without rounding.
-/

namespace Sable.Number

/-- The parts of a double: not a number, infinite, or `mantissa * 2 ^ exponent` with a sign. -/
inductive Parts where
  | nan
  | infinite (negative : Bool)
  | finite (negative : Bool) (mantissa : Nat) (exponent : Int)
  deriving DecidableEq

/-- Reads sign, exponent and fraction from the 64 bits of the encoding. -/
def Parts.ofBits (bits : Nat) : Parts :=
  let negative := bits / Nat.pow 2 63 % 2 == 1
  let exponent : Nat := bits / Nat.pow 2 52 % Nat.pow 2 11
  let fraction := bits % Nat.pow 2 52
  if exponent = 2047 then
    if fraction = 0 then .infinite negative else .nan
  else if exponent = 0 then .finite negative fraction (-1074)
  else .finite negative (Nat.pow 2 52 + fraction) ((exponent : Int) - 1075)

def Parts.of (x : Float) : Parts :=
  .ofBits x.toBits.toNat

/-- The remainder of `x` by `y` with the sign of `x`, exact. It is not a number when `x` is infinite
or `y` is zero. -/
def rem (x y : Float) : Float :=
  match Parts.of x, Parts.of y with
  | .finite negative m e, .finite _ n f =>
    if n = 0 then 0.0 / 0.0
    else
      let low := min e f
      let r := m * Nat.pow 2 (e - low).toNat % (n * Nat.pow 2 (f - low).toNat)
      let size := Float.scaleB (Float.ofNat r) low
      if negative then -size else size
  | .finite .., .infinite _ => x
  | _, _ => 0.0 / 0.0

/-- The slot a number names among `size` slots: whole, not negative and below `size`. -/
def slot? (x : Float) (size : Nat) : Option Nat :=
  match Parts.of x with
  | .finite negative m e =>
    let units := m * Nat.pow 2 e.toNat
    let one := Nat.pow 2 (-e).toNat
    let whole := units / one
    if whole * one = units ∧ (negative = false ∨ m = 0) ∧ whole < size then
      some whole
    else none
  | _ => none

end Sable.Number
