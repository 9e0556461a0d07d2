import Columnar.Binary64.Decimal
import Columnar.ColumnType
import Columnar.Dictionary.Basic
import Columnar.Layout.Basic
import Columnar.Store.Encoded
import Columnar.Store.Plain

/-!
# Columns

A column is an immutable sequence of values of one type. Its data is a layout over the store that
the type asks for; a nominal column also has the dictionary that its indices refer to.
`Column.ofData` is the gate: it refuses a store of the wrong kind, a cell of the wrong kind, a
fractional number in an integer column, and indices that the dictionary or the packed format does
not cover.
-/

set_option autoImplicit false
set_option relaxedAutoImplicit false

namespace Columnar

inductive ColumnData where
  | numbers (layout : Layout NumberStore Binary64)
  | times (layout : Layout TimeStore Int)
  | instants (layout : Layout InstantStore (Option Instant))
  | categories (layout : Layout IndexArray Nat) (dictionary : Shared Dictionary)
  | objects (layout : Layout ObjectStore Value)

namespace ColumnData

def kindName : ColumnData → String
  | numbers _ => "numeric"
  | times _ => "time"
  | instants _ => "date-time"
  | categories _ _ => "categorical"
  | objects _ => "object"

/-- The kind of store that a column type asks for. -/
def holds : ColumnData → ColumnType → Bool
  | numbers _, .real | numbers _, .integer => true
  | times _, .time => true
  | instants _, .dateTime => true
  | categories _ _, .nominal => true
  | objects _, .text | objects _, .textSet | objects _, .custom => true
  | _, _ => false

/-- Reads something off the layout, whatever its store. -/
def onLayout {α : Type} (data : ColumnData)
    (f : {S C : Type} → [Cell C] → [Store S C] → Layout S C → α) : α :=
  match data with
  | numbers layout => f layout
  | times layout => f layout
  | instants layout => f layout
  | categories layout _ => f layout
  | objects layout => f layout

/-- Replaces the layout by one over the same kind of store, keeping the dictionary. -/
def traverse {F : Type → Type} [Functor F] (data : ColumnData)
    (f : {S C : Type} → [Cell C] → [Store S C] → Layout S C → F (Layout S C)) : F ColumnData :=
  match data with
  | numbers layout => numbers <$> f layout
  | times layout => times <$> f layout
  | instants layout => instants <$> f layout
  | categories layout dictionary => (categories · dictionary) <$> f layout
  | objects layout => objects <$> f layout

end ColumnData

structure Column where
  type : ColumnType
  data : ColumnData

namespace Column

/-! ### Validation -/

/-- The cells that a layout stores: those of its store, with the default of a sparse one first. -/
def storedCells {S C : Type} [Cell C] [Store S C] (layout : Layout S C) : List C :=
  match layout with
  | .sparse source => source.default :: Store.toList source.exceptions
  | .dense store | .mapped store _ => Store.toList store

/-- The format holds the whole dictionary, and no stored index is past its end. -/
def checkCategories (layout : Layout IndexArray Nat) (dictionary : Dictionary) : Outcome Unit :=
  let format := layout.prototype.format
  let last := dictionary.maxIndex
  let largest := (storedCells layout).foldl max 0
  let entries := dictionary.size
  if !format.fits last then .error (format.overflow last)
  else if last < largest then
    .error (.invalidArgument "indices"
      s!"category index {largest} outside a dictionary of {entries} entries")
  else .ok ()

def checkObjects (type : ColumnType) (layout : Layout ObjectStore Value) : Outcome Unit :=
  match (storedCells layout).find? fun value ↦ !type.accepts value with
  | some value =>
    .error (.invalidArgument "values"
      ("a " ++ type.name ++ " column cannot hold a " ++ value.kindName ++ " value"))
  | none => .ok ()

def checkIntegers (layout : Layout NumberStore Binary64) : Outcome Unit :=
  match (storedCells layout).find? fun number ↦ number.isFinite && !number.isIntegral with
  | some number =>
    .error (.invalidArgument "data" ("INTEGER column cannot hold " ++ number.toDecimal))
  | none => .ok ()

/-- The column with this data, if the data is valid for the type. -/
def ofData (type : ColumnType) (data : ColumnData) : Outcome Column := do
  unless data.holds type do
    throw (.invalidArgument "data"
      (data.kindName ++ " storage cannot hold a " ++ type.name ++ " column"))
  match data with
  | .categories layout dictionary => checkCategories layout dictionary.value
  | .objects layout => checkObjects type layout
  | .numbers layout => if type = .integer then checkIntegers layout
  | _ => pure ()
  return ⟨type, data⟩

/-! ### Dense columns -/

def real (numbers : List Binary64) : Column :=
  ⟨.real, .numbers (.dense ⟨numbers.toArray⟩)⟩

/-- An integer column; every finite number is rounded, halves away from zero. -/
def integer (numbers : List Binary64) : Column :=
  ⟨.integer, .numbers (.dense ⟨(numbers.map Binary64.round).toArray⟩)⟩

def time (nanos : List Int) : Outcome Column := do
  return ⟨.time, .times (.dense (← TimeStore.ofList nanos))⟩

def dateTime (seconds : List Int) (nanos : Option (List Nat)) : Outcome Column := do
  return ⟨.dateTime, .instants (.dense (← InstantStore.ofParts seconds nanos))⟩

def categorical (indices : IndexArray) (dictionary : Shared Dictionary) : Outcome Column :=
  ofData .nominal (.categories (.dense indices) dictionary)

/-! ### Cells of values -/

def numberOf (value : Value) : Binary64 := value.asNumber.getD .nan

def nanosOf : Value → Int
  | .time time => time.nanos
  | _ => TimeOfDay.missingNanos

def instantOf : Value → Option Instant
  | .dateTime instant => some instant
  | _ => none

/-- The index of a value, entering its text into the dictionary if it is new. -/
def indexOf (dictionary : Dictionary) : Value → Attempt Dictionary Nat
  | .text text => dictionary.intern text
  | _ => .done 0 dictionary

/-- The dense column of these values. A nominal column gets a new dictionary of its texts in order
of first appearance. -/
def ofValues (type : ColumnType) (values : List Value) (fresh : Token) : Outcome Column := do
  if let some (value, row) := values.zipIdx.find? fun (value, _) ↦ !type.accepts value then
    let kind := value.kindName
    let expected := type.name
    throw (.invalidArgument "values" s!"row {row} holds a {kind} value, not {expected}")
  match type with
  | .real => return real (values.map numberOf)
  | .integer => return integer (values.map numberOf)
  | .nominal =>
    let entered := Attempt.runAll indexOf (fun index _ ↦ index) .empty values
    let indices ← entered.outcome
    let format ← IndexFormat.ofDictionarySize entered.state.size
    categorical (← IndexArray.ofList format indices) ⟨fresh, entered.state⟩
  | .time => return ⟨type, .times (.dense (← TimeStore.ofList (values.map nanosOf)))⟩
  | .dateTime =>
    return ⟨type, .instants (.dense (.ofInstants values.length (values.map instantOf)))⟩
  | .text | .textSet | .custom => return ⟨type, .objects (.dense ⟨values.toArray⟩)⟩

end Column

end Columnar
