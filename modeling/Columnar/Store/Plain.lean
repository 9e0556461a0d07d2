import Columnar.Binary64
import Columnar.Store.Basic
import Columnar.Value

/-!
# Stores that keep cells as they are

Numbers, raw nanoseconds of day and objects are stored unencoded. In a `TimeStore` every number is a
nanosecond of day or the missing marker when it is made through `ofList`.
-/

set_option autoImplicit false
set_option relaxedAutoImplicit false

namespace Columnar

/-! ### Numbers -/

structure NumberStore where
  numbers : Array Binary64
  deriving DecidableEq, Repr

instance : Cell Binary64 where
  missing := .nan
  same := Binary64.same

instance : Store NumberStore Binary64 where
  size store := store.numbers.size
  read store position := store.numbers[position]?.getD Cell.missing
  gather store mapping := ⟨(Cell.gather store.numbers mapping).toArray⟩
  pack _ size cells := .ok ⟨(Cell.fit size cells).toArray⟩
  sizeLimit _ := Word.elements 8
  valueBytes _ := 8

/-! ### Times of day -/

structure TimeStore where
  nanos : Array Int
  deriving DecidableEq, Repr

instance : Cell Int where
  missing := TimeOfDay.missingNanos
  same first second := first == second

instance : Store TimeStore Int where
  size store := store.nanos.size
  read store position := store.nanos[position]?.getD Cell.missing
  gather store mapping := ⟨(Cell.gather store.nanos mapping).toArray⟩
  pack _ size cells := .ok ⟨(Cell.fit size cells).toArray⟩
  sizeLimit _ := Word.elements 8
  valueBytes _ := 8

/-- Refuses a number that is neither a nanosecond of day nor the missing marker. -/
def TimeStore.ofList (nanos : List Int) : Outcome TimeStore :=
  let bad (cell : Int) : Bool :=
    cell != TimeOfDay.missingNanos && (TimeOfDay.ofNanos? cell).isNone
  match nanos.find? bad with
  | some cell => .error (TimeOfDay.outsideDay cell)
  | none => .ok ⟨nanos.toArray⟩

/-! ### Objects -/

structure ObjectStore where
  values : Array Value
  deriving DecidableEq, Repr

/-- A value takes 24 bytes, text and sets not counted. -/
def ObjectStore.sizeLimit : Nat := Word.elements 24

instance : Cell Value where
  missing := .missing
  same := Value.equal

instance : Store ObjectStore Value where
  size store := store.values.size
  read store position := store.values[position]?.getD Cell.missing
  gather store mapping := ⟨(Cell.gather store.values mapping).toArray⟩
  pack _ size cells := .ok ⟨(Cell.fit size cells).toArray⟩
  sizeLimit _ := ObjectStore.sizeLimit
  valueBytes _ := 8

end Columnar
