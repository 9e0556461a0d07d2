import Columnar.Attempt
import Columnar.Ingest.Census
import Columnar.Ingest.Options
import Columnar.Layout.Sparse

/-!
# Accumulators

An accumulator takes the cells of one column, one by one. It starts dense. When it first holds
`checkRows` cells it is inspected: if the dominant cell makes sparse storage pay, from then on only
the deviations from it are kept. When these outgrow dense storage the accumulator reverts to it for
good. None of this fixes the layout of the result: `finish` finds the dominant cell of all cells.

Dense storage makes room for the expected rows when it is created, up to `checkRows` of them, when
an inspection leaves it dense, and when it takes over from sparse storage.
-/

set_option autoImplicit false
set_option relaxedAutoImplicit false

namespace Columnar

/-- The storage that an accumulator currently uses. -/
inductive SparsityState where
  | dense
  | sparse
  | reverted
  deriving DecidableEq, Repr

/-- A default cell, and the rows that deviate from it in increasing order. -/
structure Deltas (C : Type) where
  default : C
  exceptions : Array (Nat × C)

inductive AccumulatorStorage (C : Type) [Tracked C] where
  | dense (buffer : Tracked.Buffer C)
  | sparse (deltas : Deltas C)
  | reverted (buffer : Tracked.Buffer C)

structure Accumulator (C : Type) [Tracked C] where
  options : IngestOptions
  size : Nat
  storage : AccumulatorStorage C

/-- What a finished accumulator hands over. -/
inductive Accumulated (C : Type) [Tracked C] where
  | dense (buffer : Tracked.Buffer C)
  | sparse (default : C) (size : Nat) (exceptions : List (Nat × C))

variable {C : Type} [Tracked C]

namespace Deltas

def encode (default : C) (cells : List C) : Deltas C :=
  ⟨default, (deviations (Tracked.sameKey · default) cells).toArray⟩

/-- The cells of the first `size` rows. -/
def toList (deltas : Deltas C) (size : Nat) : List C :=
  spread deltas.default 0 size deltas.exceptions.toList

end Deltas

/-- Keeps the cell of a row. A sparse storage keeps deviations only. -/
def AccumulatorStorage.record (storage : AccumulatorStorage C) (row : Nat) (cell : C) :
    Attempt (AccumulatorStorage C) Unit :=
  match storage with
  | dense buffer => (Tracked.append buffer cell).within dense
  | reverted buffer => (Tracked.append buffer cell).within reverted
  | sparse ⟨default, exceptions⟩ =>
    if Tracked.sameKey cell default then .done () (sparse ⟨default, exceptions⟩)
    else .done () (sparse ⟨default, exceptions.push (row, cell)⟩)

namespace Accumulator

def ofOptions (options : IngestOptions) : Outcome (Accumulator C) := do
  let buffer ← Tracked.withCapacity (min options.expected options.checkRows)
  return ⟨options, 0, .dense buffer⟩

def state (accumulator : Accumulator C) : SparsityState :=
  match accumulator.storage with
  | .dense _ => .dense
  | .sparse _ => .sparse
  | .reverted _ => .reverted

/-- All cells in row order. -/
def toList (accumulator : Accumulator C) : List C :=
  match accumulator.storage with
  | .dense buffer | .reverted buffer => Tracked.contents buffer
  | .sparse deltas => deltas.toList accumulator.size

/-- Turns dense storage sparse if the dominant cell makes that pay. -/
def inspect (accumulator : Accumulator C) (buffer : Tracked.Buffer C) (valueBytes : Float) :
    Attempt (Accumulator C) Unit :=
  let cells := Tracked.contents buffer
  match dominant? cells with
  | some (default, count) =>
    let density : Density := ⟨cells.length, count⟩
    if density.sparsePaysOff valueBytes accumulator.options.minSparsity then
      .done () { accumulator with storage := .sparse (.encode default cells) }
    else
      .ofOutcome accumulator
        (Word.requireRoom accumulator.options.expected (Tracked.sizeLimit buffer))
  | none => .done () accumulator

/-- Sparse storage with these deltas is still smaller than dense. -/
def stillPays (accumulator : Accumulator C) (deltas : Deltas C) (valueBytes : Float) : Bool :=
  let density : Density := ⟨accumulator.size, accumulator.size - deltas.exceptions.size⟩
  density.sparsePaysOff valueBytes 0

/-- Chooses the storage anew after a cell was added. -/
def settle (accumulator : Accumulator C) (valueBytes : Float) :
    Attempt (Accumulator C) Unit :=
  match accumulator.storage with
  | .dense buffer =>
    if accumulator.size = max accumulator.options.checkRows 1 then
      accumulator.inspect buffer valueBytes
    else .done () accumulator
  | .sparse deltas =>
    if accumulator.stillPays deltas valueBytes then .done () accumulator
    else
      let capacity := max accumulator.size accumulator.options.expected
      match Tracked.bufferOf capacity (deltas.toList accumulator.size) with
      | .ok buffer => .done () { accumulator with storage := .reverted buffer }
      | .error fault => .refused fault accumulator
  | .reverted _ => .done () accumulator

/-- Adds a cell; `valueBytes` is what a densely stored cell costs now. -/
def push : Accumulator C → C → Float → Attempt (Accumulator C) Unit
  | ⟨options, size, storage⟩, cell, valueBytes =>
    if rowLimit ≤ size then .refused (.outOfBounds size rowLimit) ⟨options, size, storage⟩
    else
      match storage.record size cell with
      | .done () storage => settle ⟨options, size + 1, storage⟩ valueBytes
      | .refused fault storage => .refused fault ⟨options, size, storage⟩

/-- The default of a sparse result, or nothing for a dense one. -/
def finalDefault? (accumulator : Accumulator C) (final : FinalLayout) (valueBytes : Float) :
    Option C :=
  match final with
  | .dense => none
  | .sparse => some ((dominant? accumulator.toList).elim Cell.missing Prod.fst)
  | .auto =>
    match dominant? accumulator.toList with
    | some (default, count) =>
      let density : Density := ⟨accumulator.size, count⟩
      if density.sparsePaysOff valueBytes accumulator.options.minSparsity then some default
      else none
    | none => none

/-- Hands the cells over, dense or sparse. Deltas from the same default are handed over as they
are. -/
def finish (accumulator : Accumulator C) (final : FinalLayout) (valueBytes : Float) :
    Outcome (Accumulated C) :=
  let encoded (default : C) (cells : List C) : Accumulated C :=
    .sparse default accumulator.size (Deltas.encode default cells).exceptions.toList
  match accumulator.finalDefault? final valueBytes, accumulator.storage with
  | none, .dense buffer | none, .reverted buffer => .ok (.dense buffer)
  | none, .sparse deltas =>
    return .dense (← Tracked.bufferOf accumulator.size (deltas.toList accumulator.size))
  | some default, .sparse deltas =>
    if Tracked.sameKey default deltas.default then
      .ok (.sparse deltas.default accumulator.size deltas.exceptions.toList)
    else .ok (encoded default (deltas.toList accumulator.size))
  | some default, .dense buffer | some default, .reverted buffer =>
    .ok (encoded default (Tracked.contents buffer))

end Accumulator

namespace Accumulated

def size : Accumulated C → Nat
  | dense buffer => (Tracked.contents buffer).length
  | sparse _ size _ => size

end Accumulated

end Columnar
