/-!
# Sets of characters

A `CharSet` is kept as the increasing list of its edges: the code points at which membership changes,
starting outside. The range tables of the Unicode standard take this form; the long ones are given by
the lengths of their ranges (`CharSet.ofRuns`).
-/

namespace Sable.Text

/-- A set of characters, by the code points at which membership flips. -/
structure CharSet where
  edges : List Nat

namespace CharSet

/-- A code point is inside when it has passed an odd number of edges. -/
def has (s : CharSet) (c : Char) : Bool :=
  (s.edges.takeWhile (· ≤ c.toNat)).length % 2 == 1

/-- The ends of consecutive runs. -/
def ends (start : Nat) : List Nat → List Nat
  | [] => []
  | length :: rest => (start + length) :: ends (start + length) rest

/-- The set of every other of consecutive runs of code points, the first of them being outside. -/
def ofRuns (lengths : List Nat) : CharSet :=
  ⟨ends 0 lengths⟩

end CharSet

end Sable.Text
