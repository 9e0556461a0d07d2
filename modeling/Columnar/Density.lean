import Columnar.Word

/-!
# When sparse storage pays

A sparse layout stores one default value and, for every row that deviates from it, a position and a
value. It pays when the default is common enough and the exceptions take strictly fewer bytes than
all rows stored densely. The comparison is made in machine floating point.
-/

set_option autoImplicit false
set_option relaxedAutoImplicit false

namespace Columnar

/-- The cost of the position of one exception. -/
def positionBytes : Float := 4

/-- The share of default rows below which a sparse layout is not considered. -/
def defaultMinSparsity : Float := 0.625

/-- How many rows there are, and how many of them hold the default value. -/
structure Density where
  rows : Nat
  defaultCount : Nat
  deriving DecidableEq, Repr

namespace Density

/-- The density of `rows` rows. There is no answer when more of them than there are hold the default
value. -/
def ofCounts? (rows defaultCount : Nat) : Option Density :=
  if defaultCount ≤ rows then some ⟨rows, defaultCount⟩ else none

def count (n : Nat) : Float := n.toUInt64.toFloat

def sparsity (density : Density) : Float :=
  if density.rows = 0 then 0 else count density.defaultCount / count density.rows

/-- The rows that do not hold the default value. -/
def exceptions (density : Density) : Nat :=
  Word.difference density.rows density.defaultCount

theorem exceptions_of_le {rows defaultCount : Nat} (h : defaultCount ≤ rows) :
    (⟨rows, defaultCount⟩ : Density).exceptions = rows - defaultCount :=
  Word.difference_of_le h

def sparsePaysOff (density : Density) (valueBytes minSparsity : Float) : Bool :=
  if density.rows = 0 || density.sparsity < minSparsity then false
  else count density.exceptions * (positionBytes + valueBytes) < count density.rows * valueBytes

end Density

end Columnar
