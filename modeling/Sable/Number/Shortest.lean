import Sable.Number.Binary

/-!
# The shortest decimal that reads back

Of the decimals that round to a given double, the one with the fewest digits is its shortest form,
and among those with equally few digits the nearest to it, the upper one of two equally near. The
search goes through grids of one, two, three and more digits and tests on each the two grid points
next to the value, in whole-number arithmetic throughout.
-/

namespace Sable.Number

/-- A decimal `digits * 10 ^ exponent`. -/
structure Scientific where
  digits : Nat
  exponent : Int
  deriving DecidableEq

/-- The power of ten just above `m * 2 ^ e`: the number of digits before the point, negative when
zeros follow it. -/
def magnitude (m : Nat) (e : Int) : Int :=
  if 0 ≤ e then (Nat.toDigits 10 (m * Nat.pow 2 e.toNat)).length
  else (Nat.toDigits 10 (m * Nat.pow 5 (-e).toNat)).length + e

/-- The decimal on the grid of step `10 ^ q` that stands for `m * 2 ^ e`, if the grid has one. The
reals that round to the value reach `below` quarters of its last binary place down and two
quarters up, the ends included when `m` is even. -/
def onGrid (m : Nat) (e : Int) (below : Nat) (q : Int) : Option Scientific :=
  let unit := Nat.pow 2 e.toNat * Nat.pow 10 (-q).toNat
  let step := 4 * Nat.pow 2 (-e).toNat * Nat.pow 10 q.toNat
  let value := 4 * m * unit
  let down := value / step
  let reaches (gap room : Nat) : Bool := if m % 2 = 0 then gap ≤ room else gap < room
  let gapDown := value - down * step
  let gapUp := (down + 1) * step - value
  let hitDown := 0 < down && reaches gapDown (below * unit)
  let hitUp := reaches gapUp (2 * unit)
  match hitDown, hitUp with
  | true, true => some ⟨if gapDown < gapUp then down else down + 1, q⟩
  | true, false => some ⟨down, q⟩
  | false, true => some ⟨down + 1, q⟩
  | false, false => none

/-- Tries grids from coarse to fine, `tries` of them, the first at step `10 ^ q`. -/
def firstGrid (m : Nat) (e : Int) (below : Nat) : Nat → Int → Option Scientific
  | 0, _ => none
  | tries + 1, q =>
    match onGrid m e below q with
    | some d => some d
    | none => firstGrid m e below tries (q - 1)

/-- The shortest decimal that rounds to `m * 2 ^ e`, for a positive mantissa. Just above a power of
two the doubles below lie twice as close as those above. -/
def shortest (m : Nat) (e : Int) : Scientific :=
  let below := if m = Nat.pow 2 52 ∧ -1074 < e then 1 else 2
  (firstGrid m e below 17 (magnitude m e - 1)).getD ⟨0, 0⟩

end Sable.Number
