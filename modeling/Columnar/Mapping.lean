import Columnar.Fault

/-!
# Mappings

A mapping lists, for every row of a view, the row of the source it shows. An entry that is negative
or past the end of the source shows nothing, and the view reads missing there. Mappings compose:
looking through one and then through another is looking through their composition.
-/

set_option autoImplicit false
set_option relaxedAutoImplicit false

namespace Columnar

/-- The largest number of rows of a column, and the largest position an entry can name. -/
def rowLimit : Nat := 2147483647

structure Mapping where
  entries : Array Int
  deriving DecidableEq, Repr

namespace Mapping

def ofList (entries : List Int) : Mapping := ⟨entries.toArray⟩

def size (mapping : Mapping) : Nat := mapping.entries.size

def toList (mapping : Mapping) : List Int := mapping.entries.toList

/-- The source row an entry names, among `sourceSize` rows. -/
def target? (sourceSize : Nat) (entry : Int) : Option Nat :=
  if 0 ≤ entry ∧ entry.toNat < sourceSize then some entry.toNat else none

theorem target?_eq_some_iff {sourceSize row : Nat} {entry : Int} :
    target? sourceSize entry = some row ↔ entry = row ∧ row < sourceSize := by
  unfold target?
  split
  · simp only [Option.some.injEq]; omega
  · simp only [reduceCtorEq, false_iff]; omega

/-- The source row shown at `row`; `none` when `row` is past the end of the mapping. -/
def resolve? (mapping : Mapping) (row sourceSize : Nat) : Option (Option Nat) :=
  mapping.entries[row]?.map (target? sourceSize)

/-- The mapping that shows every one of `size` rows in place. -/
def identity (size : Nat) : Outcome Mapping := do
  Fault.require "len" "len <= i32::MAX as usize" (size ≤ rowLimit)
  return ⟨Array.ofFn fun row : Fin size ↦ (row : Int)⟩

/-- Looking through `next` at what `base` shows. An entry of `next` outside `base` becomes `-1`. -/
def compose (base next : Mapping) : Mapping :=
  ⟨next.entries.map fun entry ↦
    match target? base.size entry with
    | some row => base.entries[row]?.getD (-1)
    | none => -1⟩

@[simp]
theorem size_compose (base next : Mapping) : (base.compose next).size = next.size := by
  simp [compose, size]

end Mapping

end Columnar
