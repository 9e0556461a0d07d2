import Columnar.Value

/-!
# Column types

The type of a column decides which values its cells hold, how they are stored, and which reads and
transforms the column supports.
-/

set_option autoImplicit false
set_option relaxedAutoImplicit false

namespace Columnar

inductive ColumnType where
  | real
  | integer
  | nominal
  | time
  | dateTime
  | text
  | textSet
  | custom
  deriving DecidableEq, Repr

/-- How the cells of a type are stored. -/
inductive Category where
  | numeric
  | categorical
  | object
  deriving DecidableEq, Repr

/-- An operation that only some column types support. -/
inductive Capability where
  | numericReadable
  | objectReadable
  | sortable
  deriving DecidableEq, Repr

/-- The bit that stands for a capability in a set of them. -/
def Capability.bit : Capability → Nat
  | numericReadable => 1
  | objectReadable => 2
  | sortable => 4

namespace ColumnType

def name : ColumnType → String
  | real => "REAL"
  | integer => "INTEGER"
  | nominal => "NOMINAL"
  | time => "TIME"
  | dateTime => "DATE_TIME"
  | text => "TEXT"
  | textSet => "TEXT_SET"
  | custom => "CUSTOM"

def category : ColumnType → Category
  | real | integer => .numeric
  | nominal => .categorical
  | time | dateTime | text | textSet | custom => .object

def capabilities : ColumnType → List Capability
  | real | integer => [.numericReadable, .sortable]
  | nominal | time => [.numericReadable, .objectReadable, .sortable]
  | dateTime | text => [.objectReadable, .sortable]
  | textSet | custom => [.objectReadable]

def supports (type : ColumnType) (capability : Capability) : Bool :=
  type.capabilities.contains capability

def capabilityBits (type : ColumnType) : Nat :=
  type.capabilities.foldl (fun bits capability ↦ bits + capability.bit) 0

/-- A cell of this type can hold the value. Every cell can be missing. -/
def accepts : ColumnType → Value → Bool
  | _, .missing => true
  | real, .number _ | integer, .number _ => true
  | nominal, .text _ | text, .text _ => true
  | time, .time _ => true
  | dateTime, .dateTime _ => true
  | textSet, .textSet _ => true
  | custom, .custom _ => true
  | _, _ => false

def unsupported (type : ColumnType) (operation : String) : Fault :=
  .unsupported operation type.name

end ColumnType

end Columnar
