import Columnar.Ingest.ColumnBuilder

/-!
# Writing a table

A table builder takes rows. `moveNext` starts a row, `set` stages a value for one of its columns,
and a column left unset is missing in that row. The staged values are handed to the column builders
only when the next row starts or the table is created, so all columns have the same number of rows
at any time. A table is created once; the builder then refuses every call.
-/

set_option autoImplicit false
set_option relaxedAutoImplicit false

namespace Columnar

/-- Labelled columns of equal height. -/
structure Table where
  labels : List String
  columns : List Column
  height : Nat

namespace Table

def width (table : Table) : Nat := table.columns.length

/-- The first column with this label. -/
def column? (table : Table) (label : String) : Option Column :=
  (table.labels.idxOf? label).bind fun place ↦ table.columns[place]?

end Table

/-- A column being written, with the value staged for the current row. -/
structure Slot where
  builder : ColumnBuilder
  staged : Value := .missing

/-- Hands the staged values over, column by column, up to the first refusal. -/
def Slot.commitAll : List Slot → Attempt (List Slot) Unit
  | [] => .done () []
  | slot :: rest =>
    match slot.builder.push slot.staged with
    | .done () builder => (commitAll rest).within ({ builder : Slot } :: ·)
    | .refused fault builder => .refused fault ({ builder } :: rest)

/-- Finishes every column; each has a token of its own, counting from `fresh`. -/
def Slot.finishAll (final : FinalLayout) : Token → List Slot → Outcome (List Column)
  | _, [] => .ok []
  | fresh, slot :: rest => do
    let column ← slot.builder.finish final fresh
    return column :: (← finishAll final (fresh + 1) rest)

structure TableBuilder where
  labels : List String
  slots : List Slot
  rows : Nat := 0
  finalLayout : FinalLayout
  frozen : Bool := false

namespace TableBuilder

def ofTypes (labels : List String) (types : List ColumnType) (options : IngestOptions) :
    Outcome TableBuilder := do
  Fault.require "types" "types.len() == labels.len()" (types.length = labels.length)
  let builders ← types.mapM fun type ↦ ColumnBuilder.ofType type options
  return {
    labels
    slots := builders.map fun builder ↦ { builder }
    finalLayout := options.finalLayout }

def width (builder : TableBuilder) : Nat := builder.slots.length

def alreadyCreated : Fault := .illegalState "row writer already created its columns"

/-- Hands over the current row, if there is one. -/
def commit : TableBuilder → Attempt TableBuilder Unit
  | ⟨labels, slots, rows, finalLayout, frozen⟩ =>
    if rows = 0 then .done () ⟨labels, slots, rows, finalLayout, frozen⟩
    else (Slot.commitAll slots).within (⟨labels, ·, rows, finalLayout, frozen⟩)

/-- Starts a row. -/
def moveNext (builder : TableBuilder) : Attempt TableBuilder Unit :=
  if builder.frozen then .refused alreadyCreated builder
  else if rowLimit ≤ builder.rows then .refused (.outOfBounds builder.rows rowLimit) builder
  else
    match builder.commit with
    | .done () builder => .done () { builder with rows := builder.rows + 1 }
    | .refused fault builder => .refused fault builder

/-- Stages a value for a column of the current row, in place of one staged before. -/
def set (builder : TableBuilder) (column : Nat) (value : Value) : Attempt TableBuilder Unit :=
  if builder.frozen then .refused alreadyCreated builder
  else if builder.rows = 0 then
    .refused (.illegalState "set called before the first move_next") builder
  else
    match builder.slots[column]? with
    | none => .refused (.outOfBounds column builder.width) builder
    | some slot =>
      if slot.builder.type.accepts value then
        .done () { builder with slots := builder.slots.set column { slot with staged := value } }
      else
        let type := slot.builder.type.name
        let kind := value.kindName
        let reason := s!"column {column} ({type}) cannot hold a {kind} value"
        .refused (.invalidArgument "value" reason) builder

/-- Hands over the last row and finishes all columns; the builder is then empty and frozen. -/
def create (builder : TableBuilder) (fresh : Token) : Attempt TableBuilder Table :=
  if builder.frozen then .refused alreadyCreated builder
  else
    match builder.commit with
    | .refused fault builder => .refused fault builder
    | .done () builder =>
      match Slot.finishAll builder.finalLayout fresh builder.slots with
      | .error fault => .refused fault { builder with slots := [], frozen := true }
      | .ok columns =>
        .done ⟨builder.labels, columns, builder.rows⟩
          { builder with labels := [], slots := [], frozen := true }

end TableBuilder

end Columnar
