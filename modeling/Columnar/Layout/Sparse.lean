import Columnar.Density
import Columnar.Store.Basic

/-!
# Sparse stores

A sparse store has a default cell and, for the rows that deviate from it, their increasing positions
and a store of their cells. A row is found among the positions by binary search; reading all rows
walks the positions once.
-/

set_option autoImplicit false
set_option relaxedAutoImplicit false

namespace Columnar

/-- The rows whose cell is not the default, with their cells. -/
def deviations {C : Type} (isDefault : C → Bool) (cells : List C) : List (Nat × C) :=
  cells.zipIdx.filterMap fun (cell, row) ↦ if isDefault cell then none else some (row, cell)

/-- The cells of `count` rows from `row` on: the default except at the listed rows, which come in
increasing order. -/
def spread {C : Type} (default : C) : (row count : Nat) → List (Nat × C) → List C
  | _, 0, _ => []
  | row, count + 1, [] => default :: spread default (row + 1) count []
  | row, count + 1, (position, cell) :: rest =>
    if position = row then cell :: spread default (row + 1) count rest
    else default :: spread default (row + 1) count ((position, cell) :: rest)

/-- Narrows `low ≤ · ≤ high` to the first place where an increasing array reaches `target`. -/
def lowerBoundFrom (positions : Array Nat) (target : Nat) : (fuel low high : Nat) → Nat
  | 0, low, _ => low
  | fuel + 1, low, high =>
    if low < high then
      let middle := low + (high - low) / 2
      if positions[middle]?.getD 0 < target then
        lowerBoundFrom positions target fuel (middle + 1) high
      else lowerBoundFrom positions target fuel low middle
    else low

/-- The number of positions before `target`; each step halves the range. -/
def lowerBound (positions : Array Nat) (target : Nat) : Nat :=
  lowerBoundFrom positions target (positions.size.log2 + 1) 0 positions.size

structure SparseStore (S C : Type) where
  default : C
  size : Nat
  positions : Array Nat
  exceptions : S
  deriving Repr

namespace SparseStore

variable {S C : Type} [Cell C] [Store S C]

def increasing : List Nat → Bool
  | first :: second :: rest => first < second && increasing (second :: rest)
  | _ => true

/-- Accepts one exception for each of the increasing positions below `size`. -/
def ofExceptions (default : C) (size : Nat) (positions : List Nat) (exceptions : S) :
    Outcome (SparseStore S C) := do
  Fault.require "len" "len <= u32::MAX as usize" (size ≤ 4294967295)
  Fault.require "exceptions" "exceptions.len() == positions.len()"
    (Store.size exceptions = positions.length)
  Fault.require "positions" "positions.windows(2).all(|pair| pair[0] < pair[1])"
    (increasing positions)
  match positions.getLast? with
  | some last => if size ≤ last then throw (.outOfBounds last size)
  | none => pure ()
  return ⟨default, size, positions.toArray, exceptions⟩

/-- Encodes the first `size` cells against a default; a prototype tells what store to keep the
exceptions in. -/
def ofCells (prototype : S) (default : C) (size : Nat) (cells : List C) :
    Outcome (SparseStore S C) := do
  let kept := deviations (Cell.same · default) (cells.take size)
  let exceptions ← Store.collect prototype kept.length (kept.map Prod.snd)
  ofExceptions default size (kept.map Prod.fst) exceptions

def exceptionCount (sparse : SparseStore S C) : Nat := sparse.positions.size

def density (sparse : SparseStore S C) : Density :=
  ⟨sparse.size, sparse.size - sparse.exceptionCount⟩

/-- The place of a row among the exceptions. -/
def exception? (sparse : SparseStore S C) (row : Nat) : Option Nat :=
  let place := lowerBound sparse.positions row
  if sparse.positions[place]? = some row then some place else none

def read (sparse : SparseStore S C) (row : Nat) : C :=
  match sparse.exception? row with
  | some place => Store.read sparse.exceptions place
  | none => sparse.default

/-- The exceptions with their rows. -/
def entries (sparse : SparseStore S C) : List (Nat × C) :=
  sparse.positions.toList.zipIdx.map fun (row, place) ↦ (row, Store.read sparse.exceptions place)

def toList (sparse : SparseStore S C) : List C :=
  spread sparse.default 0 sparse.size sparse.entries

/-- What a mapping shows that is not known to be the default: an exception, or missing where the
entry names no row. -/
def shown? (sparse : SparseStore S C) (entry : Int) : Option C :=
  match Mapping.target? sparse.size entry with
  | some row => (sparse.exception? row).map (Store.read sparse.exceptions)
  | none => some Cell.missing

/-- The rows of a view that deviate from the default, with their cells. -/
def shownDeviations (sparse : SparseStore S C) (mapping : Mapping) : List (Nat × C) :=
  mapping.toList.zipIdx.filterMap fun (entry, row) ↦
    match sparse.shown? entry with
    | some cell => if Cell.same cell sparse.default then none else some (row, cell)
    | none => none

end SparseStore

end Columnar
