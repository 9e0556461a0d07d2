import Columnar.Fault
import Columnar.Mapping

/-!
# Sort permutations

Sorting a column yields the mapping that shows its rows in order. Missing cells count as greater
than all others, so they come last in ascending and first in descending order; rows that tie keep
their order in both directions.
-/

set_option autoImplicit false
set_option relaxedAutoImplicit false

namespace Columnar

inductive SortOrder where
  | ascending
  | descending
  deriving DecidableEq, Repr

variable {C : Type}

/-- Extends an order of present cells to missing ones. -/
def compareMissingLast (isMissing : C → Bool) (compare : C → C → Ordering) (first second : C) :
    Ordering :=
  match isMissing first, isMissing second with
  | true, true => .eq
  | true, false => .gt
  | false, true => .lt
  | false, false => compare first second

/-- `first` may stand before `second`. -/
def SortOrder.allows (order : SortOrder) (compare : C → C → Ordering) (first second : C) : Bool :=
  match order with
  | ascending => (compare first second).isLE
  | descending => (compare second first).isLE

def sortPermutation (cells : List C) (order : SortOrder) (compare : C → C → Ordering)
    (isMissing : C → Bool) : Outcome Mapping := do
  Fault.require "values" "values.len() <= i32::MAX as usize" (cells.length ≤ rowLimit)
  let compareCells := compareMissingLast isMissing compare
  let sorted := cells.zipIdx.mergeSort fun first second ↦
    order.allows compareCells first.1 second.1
  return .ofList (sorted.map fun (_, row) ↦ (row : Int))

end Columnar
