import Columnar.Column.Read
import Columnar.Dictionary.Renumbering

/-!
# Deriving columns

A column yields others without changing: what a mapping shows of it, the same column without rows,
or a nominal column renumbered for another dictionary.
-/

set_option autoImplicit false
set_option relaxedAutoImplicit false

namespace Columnar.Column

variable (column : Column)

/-- A view of numbers must show at least one row for this many of the store it keeps alive. -/
def viewCoverage : Nat := 10

/-- Whether a view is worth keeping the whole store for. Only numbers are ever gathered instead. -/
def viewPaysOff (mapping : Mapping) : Bool :=
  match column.data with
  | .numbers layout => Store.size layout.prototype ≤ mapping.size * viewCoverage
  | _ => true

/-- The column of what the mapping shows. `preferView` asks for a view sharing the store. -/
def map (mapping : Shared Mapping) (preferView : Bool) (fresh : Token) : Outcome Column := do
  let view := preferView && column.viewPaysOff mapping.value
  let data ← column.data.traverse fun layout ↦ layout.map mapping view fresh
  return ⟨column.type, data⟩

/-- As `map`, with the mapping of a view composed through a cache. -/
def mapCached (mapping : Shared Mapping) (preferView : Bool) (fresh : Token) :
    StateT MappingCache Outcome Column := do
  let view := preferView && column.viewPaysOff mapping.value
  let data ← column.data.traverse fun layout ↦ layout.mapCached mapping view fresh
  return ⟨column.type, data⟩

/-- The column without its rows; a nominal one keeps its dictionary. -/
def stripped : Outcome Column := do
  let data ← column.data.traverse fun layout ↦ layout.stripped
  return ⟨column.type, data⟩

def renumberIndex (renumbering : Renumbering) (index : Nat) : Outcome Nat :=
  match renumbering.get? index with
  | some target => .ok target
  | none => .error (.invalidArgument "translation" s!"no entry for index {index}")

/-- A nominal column for another dictionary: every index is taken through the renumbering and stored
in the narrowest format that holds the new dictionary. -/
def withDictionary (dictionary : Shared Dictionary) (renumbering : Renumbering) :
    Outcome Column := do
  match column.data with
  | .categories layout current =>
    Fault.require "translation" "translation.len() >= current.size()"
      (current.value.size ≤ renumbering.size)
    Fault.require "translation" "(translation.max_target() as usize) < dictionary.size()"
      (renumbering.maxTarget < dictionary.value.size)
    let format ← IndexFormat.ofDictionarySize dictionary.value.size
    let layout ← layout.rebuild (·.renumber renumbering.targets format)
      (renumberIndex renumbering)
    ofData column.type (.categories layout dictionary)
  | _ => throw (column.type.unsupported "with_dictionary")

end Columnar.Column
