import Columnar.Column.Basic
import Columnar.Column.SortOrder

/-!
# Reading columns

A column is read as numbers, as values, or, when nominal, as category indices: one row at a time, or
many rows into a buffer. A buffer may be filled with a stride, so that several columns fill the rows
of one table. A missing cell reads as NaN, `missing` or `0`.
-/

set_option autoImplicit false
set_option relaxedAutoImplicit false

namespace Columnar.Column

variable (column : Column)

def size : Nat := column.data.onLayout fun layout ↦ layout.size

def arrangement : Arrangement := column.data.onLayout fun layout ↦ layout.arrangement

/-- The dictionary of a nominal column. -/
def dictionary? : Option (Shared Dictionary) :=
  match column.data with
  | .categories _ dictionary => some dictionary
  | _ => none

/-- The mapping of a view. -/
def mapping? : Option (Shared Mapping) := column.data.onLayout fun layout ↦ layout.mapping?

/-- Refuses an operation that the type of the column does not support. -/
def require (capability : Capability) (operation : String) : Outcome Unit :=
  if column.type.supports capability then .ok () else .error (column.type.unsupported operation)

/-! ### Cells as numbers and values -/

def timeNumber (nanos : Int) : Binary64 :=
  if nanos = TimeOfDay.missingNanos then .nan else .ofInt nanos

def categoryNumber (index : Nat) : Binary64 := if index = 0 then .nan else .ofInt index

def timeValue (nanos : Int) : Value := (TimeOfDay.ofNanos? nanos).elim .missing .time

def categoryValue (dictionary : Dictionary) (index : Nat) : Value :=
  (dictionary.get? index).elim .missing .text

/-- The value of one row. -/
def get (row : Nat) : Outcome Value :=
  if column.size ≤ row then .error (.outOfBounds row column.size)
  else .ok <|
    match column.data with
    | .numbers layout => .ofNumber (layout.read row)
    | .times layout => timeValue (layout.read row)
    | .instants layout => .ofInstant? (layout.read row)
    | .categories layout dictionary => categoryValue dictionary.value (layout.read row)
    | .objects layout => layout.read row

/-! ### Filling buffers -/

/-- The number of rows that a fill writes, once its arguments are accepted. -/
def checkFill (bufferSize start offset step : Nat) : Outcome Nat := do
  Fault.require "step" "step > 0" (0 < step)
  if column.size < start then throw (.outOfBounds start column.size)
  return Layout.fillCount column.size start bufferSize offset step

/-- Writes row `start + k` as a number to `offset + k * step`, as far as rows and buffer reach, and
answers with the number of rows written. -/
def fillNumbers (buffer : Array Binary64) (start offset step : Nat) :
    Outcome (Nat × Array Binary64) := do
  column.require .numericReadable "fill_numeric"
  let count ← column.checkFill buffer.size start offset step
  match column.data with
  | .numbers layout => return (count, layout.fill buffer start offset step id)
  | .times layout => return (count, layout.fill buffer start offset step timeNumber)
  | .categories layout _ => return (count, layout.fill buffer start offset step categoryNumber)
  | .instants _ | .objects _ => throw (column.type.unsupported "fill_numeric")

/-- As `fillNumbers`, with values. -/
def fillValues (buffer : Array Value) (start offset step : Nat) :
    Outcome (Nat × Array Value) := do
  column.require .objectReadable "fill_objects"
  let count ← column.checkFill buffer.size start offset step
  match column.data with
  | .times layout => return (count, layout.fill buffer start offset step timeValue)
  | .instants layout => return (count, layout.fill buffer start offset step .ofInstant?)
  | .categories layout dictionary =>
    return (count, layout.fill buffer start offset step (categoryValue dictionary.value))
  | .objects layout => return (count, layout.fill buffer start offset step id)
  | .numbers _ => throw (column.type.unsupported "fill_objects")

/-- Writes the category indices of the rows from `start` on to the front of the buffer. -/
def fillIndices (buffer : Array Nat) (start : Nat) : Outcome (Nat × Array Nat) := do
  match column.data with
  | .categories layout _ =>
    let count ← column.checkFill buffer.size start 0 1
    return (count, layout.fill buffer start 0 1 id)
  | _ => throw (column.type.unsupported "fill_indices")

/-! ### Order and counts -/

/-- A category without a text comes before all others. -/
def compareCategories (dictionary : Dictionary) (first second : Nat) : Ordering :=
  match dictionary.get? first, dictionary.get? second with
  | none, none => .eq
  | none, some _ => .lt
  | some _, none => .gt
  | some first, some second => Ord.compare first second

def compareInstants : Option Instant → Option Instant → Ordering
  | none, none => .eq
  | none, some _ => .lt
  | some _, none => .gt
  | some first, some second => first.compare second

/-- The mapping that shows the rows in order; categories are ordered by their texts. -/
def sort (order : SortOrder) : Outcome Mapping := do
  column.require .sortable "sort"
  match column.data with
  | .numbers layout =>
    sortPermutation layout.toArray.toList order Binary64.compare Binary64.isNaN
  | .times layout =>
    sortPermutation layout.toArray.toList order Ord.compare (· == TimeOfDay.missingNanos)
  | .instants layout => sortPermutation layout.toArray.toList order compareInstants (·.isNone)
  | .categories layout dictionary =>
    sortPermutation layout.toArray.toList order (compareCategories dictionary.value) (· == 0)
  | .objects layout => sortPermutation layout.toArray.toList order Value.compare Value.isMissing

/-- How often each index of the dictionary occurs, the missing one first. A sparse layout counts
its default once for all rows that are not exceptions. -/
def categoryUsage : Outcome (Array Nat) :=
  match column.data with
  | .categories layout dictionary =>
    let none := Array.replicate dictionary.value.size 0
    let count (usage : Array Nat) (index : Nat) : Array Nat := usage.modify index (· + 1)
    match layout with
    | .sparse source =>
      let regular := source.size - source.exceptionCount
      .ok ((Store.toList source.exceptions).foldl count
        (none.modify source.default (· + regular)))
    | _ => .ok (layout.toArray.foldl count none)
  | _ => .error (column.type.unsupported "category_usage")

end Columnar.Column
