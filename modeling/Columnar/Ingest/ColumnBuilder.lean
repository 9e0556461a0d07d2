import Columnar.Column.Basic
import Columnar.Ingest.Accumulator

/-!
# Writing a column

A column builder takes the values of one column and finishes to the column. Numbers of an integer
column are rounded on the way in, a nominal builder grows its own dictionary, instants are stored in
high precision once one of them needs it, and objects are never stored sparsely.
-/

set_option autoImplicit false
set_option relaxedAutoImplicit false

namespace Columnar

inductive ColumnBuilder where
  | numbers (type : ColumnType) (cells : Accumulator Binary64)
  | times (cells : Accumulator Int)
  | instants (highPrecision : Bool) (cells : Accumulator (Option Instant))
  | categories (dictionary : Dictionary) (cells : Accumulator Nat)
  | objects (type : ColumnType) (values : Array Value)

namespace ColumnBuilder

def ofType (type : ColumnType) (options : IngestOptions) : Outcome ColumnBuilder := do
  match type with
  | .real | .integer => return numbers type (← Accumulator.ofOptions options)
  | .time => return times (← Accumulator.ofOptions options)
  | .dateTime => return instants false (← Accumulator.ofOptions options)
  | .nominal => return categories .empty (← Accumulator.ofOptions options)
  | .text | .textSet | .custom =>
    Word.requireRoom options.expected ObjectStore.sizeLimit
    return objects type #[]

def type : ColumnBuilder → ColumnType
  | numbers type _ => type
  | times _ => .time
  | instants _ _ => .dateTime
  | categories _ _ => .nominal
  | objects type _ => type

/-- The number of values written. -/
def size : ColumnBuilder → Nat
  | numbers _ cells => cells.size
  | times cells => cells.size
  | instants _ cells => cells.size
  | categories _ cells => cells.size
  | objects _ values => values.size

def state : ColumnBuilder → SparsityState
  | numbers _ cells => cells.state
  | times cells => cells.state
  | instants _ cells => cells.state
  | categories _ cells => cells.state
  | objects _ _ => .dense

/-! ### Writing values -/

/-- The cost of a densely stored instant. -/
def instantBytes (highPrecision : Bool) : Float := if highPrecision then 12 else 8

/-- The number that a column of this type stores for a value. -/
def numberFor (type : ColumnType) (value : Value) : Binary64 :=
  let number := Column.numberOf value
  if type = .integer then number.round else number

def pushInstant (highPrecision : Bool) (cells : Accumulator (Option Instant))
    (instant : Option Instant) : Attempt ColumnBuilder Unit :=
  let highPrecision := highPrecision || InstantStore.nanosOf instant != 0
  (cells.push instant (instantBytes highPrecision)).within (instants highPrecision)

/-- Enters the text of the value, then stores its index in what the dictionary now costs. -/
def pushCategory (dictionary : Dictionary) (cells : Accumulator Nat) (value : Value) :
    Attempt ColumnBuilder Unit :=
  match Column.indexOf dictionary value with
  | .refused fault dictionary => .refused fault (categories dictionary cells)
  | .done index dictionary =>
    match IndexFormat.ofDictionarySize dictionary.size with
    | .error fault => .refused fault (categories dictionary cells)
    | .ok format => (cells.push index format.valueBytes).within (categories dictionary)

/-- Writes a value, which is missing or of the type of the column. -/
def push (builder : ColumnBuilder) (value : Value) : Attempt ColumnBuilder Unit :=
  if builder.type.accepts value then
    match builder with
    | numbers type cells => (cells.push (numberFor type value) 8).within (numbers type)
    | times cells => (cells.push (Column.nanosOf value) 8).within times
    | instants highPrecision cells => pushInstant highPrecision cells (Column.instantOf value)
    | categories dictionary cells => pushCategory dictionary cells value
    | objects type values => .done () (objects type (values.push value))
  else
    let type := builder.type.name
    let kind := value.kindName
    .refused (.invalidArgument "value" s!"a {type} column cannot hold a {kind} value") builder

/-! ### Finishing -/

/-- Stores what was accumulated; a prototype tells what store to keep sparse exceptions in. -/
def layoutOf {S C : Type} [Tracked C] [Store S C] (prototype : S)
    (dense : Tracked.Buffer C → Outcome S) : Accumulated C → Outcome (Layout S C)
  | .dense buffer => return .dense (← dense buffer)
  | .sparse default size exceptions => do
    let store ← Store.collect prototype exceptions.length (exceptions.map Prod.snd)
    return .sparse (← SparseStore.ofExceptions default size (exceptions.map Prod.fst) store)

/-- The column of the values written. A nominal one holds its dictionary under the token `fresh`. -/
def finish (builder : ColumnBuilder) (final : FinalLayout) (fresh : Token) : Outcome Column :=
  match builder with
  | numbers type cells => do
    let layout ← layoutOf (S := NumberStore) ⟨#[]⟩ (fun buffer ↦ .ok ⟨buffer⟩)
      (← cells.finish final 8)
    Column.ofData type (.numbers layout)
  | times cells => do
    let layout ← layoutOf (S := TimeStore) ⟨#[]⟩ (fun buffer ↦ TimeStore.ofList buffer.toList)
      (← cells.finish final 8)
    Column.ofData .time (.times layout)
  | instants highPrecision cells => do
    let layout ← layoutOf (S := InstantStore) (.ofInstants 0 [])
      (fun buffer ↦ .ok (.ofInstants buffer.size buffer.toList))
      (← cells.finish final (instantBytes highPrecision))
    Column.ofData .dateTime (.instants layout)
  | categories dictionary cells => do
    let format ← IndexFormat.ofDictionarySize dictionary.size
    let layout ← layoutOf (S := IndexArray) (.empty format) (fun buffer ↦ buffer.widen format)
      (← cells.finish final format.valueBytes)
    Column.ofData .nominal (.categories layout ⟨fresh, dictionary⟩)
  | objects type values => Column.ofData type (.objects (.dense ⟨values⟩))

end ColumnBuilder

end Columnar
