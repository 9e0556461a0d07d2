import Columnar.Mapping
import Columnar.Word

/-!
# Stores of cells

A store is an array of cells of one kind. Layouts share stores and never change one: a new column
either shares the store of its source or collects its cells into a new one. Reading past the end of
a store reads the missing cell, so a position that resolves to nothing needs no case of its own. A
store has a limit on the size that can be asked for, which `collect` checks.
-/

set_option autoImplicit false
set_option relaxedAutoImplicit false

namespace Columnar

/-- A kind of cell, with its missing value and the equality that columns see. -/
class Cell (C : Type) where
  missing : C
  same : C → C → Bool

class Store (S : Type) (C : outParam Type) [Cell C] where
  size : S → Nat
  /-- The cell at a position, missing past the end. -/
  read : S → Nat → C
  /-- The cells that a mapping shows. -/
  gather : S → Mapping → S
  /-- A store like this one with the first `size` of the given cells, filled up with missing. -/
  pack : S → (size : Nat) → List C → Outcome S
  /-- The largest size of a store like this one. -/
  sizeLimit : S → Nat
  /-- The cost of one cell. -/
  valueBytes : S → Float

namespace Store

variable {S C : Type} [Cell C] [Store S C]

def get? (store : S) (position : Nat) : Option C :=
  if position < size store then some (read store position) else none

def toList (store : S) : List C := (List.range (size store)).map (read store)

/-- As `pack`, for a size within the limit. -/
def collect (store : S) (size : Nat) (cells : List C) : Outcome S := do
  Word.requireRoom size (sizeLimit store)
  pack store size cells

end Store

/-- The first `size` cells, filled up with missing. -/
def Cell.fit {C : Type} [Cell C] (size : Nat) (cells : List C) : List C :=
  cells.take size ++ List.replicate (size - cells.length) Cell.missing

/-- The cells of an array that a mapping shows. -/
def Cell.gather {C : Type} [Cell C] (cells : Array C) (mapping : Mapping) : List C :=
  mapping.toList.map fun entry ↦
    match Mapping.target? cells.size entry with
    | some position => cells[position]?.getD Cell.missing
    | none => Cell.missing

end Columnar
