import Sable.Number.Shortest

/-!
# Writing numbers

Two notations for a double, both with the digits of its shortest decimal. The everyday one never
has an exponent and shows whole numbers without a point. The one of program outlines keeps a point
in every number and turns to an exponent for very large and very small values.
-/

namespace Sable.Number

/-- The decimal digits of a number, most significant first. -/
def numerals (n : Nat) : List Char :=
  Nat.toDigits 10 n

/-- Drops the zeros at the end of the digits and counts them into the exponent. -/
def Scientific.normal (d : Scientific) : List Char × Int :=
  let shown := numerals d.digits
  let zeros := (shown.reverse.takeWhile (· == '0')).length
  if d.digits = 0 then (['0'], 0)
  else (shown.take (shown.length - zeros), d.exponent + zeros)

/-- Digits scaled by a power of ten, written out in full. -/
def positional (digits : List Char) (exponent : Int) : List Char :=
  if 0 ≤ exponent then digits ++ List.replicate exponent.toNat '0'
  else
    let places := (-exponent).toNat
    if digits.length ≤ places then
      ['0', '.'] ++ List.replicate (places - digits.length) '0' ++ digits
    else digits.take (digits.length - places) ++ '.' :: digits.drop (digits.length - places)

/-- Digits scaled by a power of ten, with one digit before the point and an exponent. -/
def exponential (digits : List Char) (exponent : Int) : List Char :=
  let power := exponent + (digits.length - 1 : Nat)
  let head := match digits with
    | d :: e :: rest => d :: '.' :: e :: rest
    | short => short
  head ++ 'e' :: (toString power).toList

/-- How a number is shown and printed: in full, without an exponent. -/
def plain (x : Float) : String :=
  match Parts.of x with
  | .nan => "NaN"
  | .infinite negative => if negative then "-inf" else "inf"
  | .finite negative m e =>
    let (digits, exponent) := if m = 0 then (['0'], 0) else (shortest m e).normal
    String.ofList ((if negative then ['-'] else []) ++ positional digits exponent)

/-- How a number stands in a program outline: always with a point or an exponent, the exponent below
`10 ^ -4` and from `10 ^ 16` on. -/
def pointed (x : Float) : String :=
  match Parts.of x with
  | .nan => "NaN"
  | .infinite negative => if negative then "-inf" else "inf"
  | .finite negative m e =>
    let (digits, exponent) := if m = 0 then (['0'], 0) else (shortest m e).normal
    let power := exponent + (digits.length - 1 : Nat)
    let body :=
      if m ≠ 0 ∧ (power < -4 ∨ 16 ≤ power) then exponential digits exponent
      else if 0 ≤ exponent then positional digits exponent ++ ['.', '0']
      else positional digits exponent
    String.ofList ((if negative then ['-'] else []) ++ body)

end Sable.Number
