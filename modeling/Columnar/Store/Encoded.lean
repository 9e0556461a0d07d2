import Columnar.Index.Array
import Columnar.Store.Basic
import Columnar.Value.Clock

/-!
# Stores that encode their cells

Category indices are packed into the format of their array. Instants are split into seconds and, in
high precision only, nanoseconds: an `InstantStore` made from instants keeps the array of
nanoseconds exactly when one of them is not zero.
-/

set_option autoImplicit false
set_option relaxedAutoImplicit false

namespace Columnar

/-! ### Category indices -/

instance : Cell Nat where
  missing := 0
  same first second := first == second

instance : Store IndexArray Nat where
  size array := array.size
  read array position := (array.get? position).getD Cell.missing
  gather array mapping := array.gather mapping
  pack array size cells := (IndexArray.zeros array.format size).store (cells.take size)
  sizeLimit array := array.format.sizeLimit
  valueBytes array := array.format.valueBytes

/-! ### Instants -/

structure InstantStore where
  seconds : Array Int
  nanos : Option (Array Nat)
  deriving DecidableEq, Repr

instance : Cell (Option Instant) where
  missing := none
  same first second := first == second

namespace InstantStore

def ofParts (seconds : List Int) : Option (List Nat) → Outcome InstantStore
  | none => .ok ⟨seconds.toArray, none⟩
  | some nanos => do
    Fault.require "nanos" "nanos.len() == seconds.len()" (nanos.length = seconds.length)
    match nanos.find? (nanosPerSecond ≤ ·) with
    | some bad => .error (.invalidArgument "nanos" s!"{bad} >= 1e9")
    | none => .ok ⟨seconds.toArray, some nanos.toArray⟩

def secondsOf (instant : Option Instant) : Int := instant.elim Instant.missingSeconds (·.seconds)

def nanosOf (instant : Option Instant) : Nat := instant.elim 0 (·.nanos)

def ofInstants (size : Nat) (instants : List (Option Instant)) : InstantStore :=
  let cells := Cell.fit size instants
  let nanos := cells.map nanosOf
  ⟨(cells.map secondsOf).toArray,
    if nanos.any (· != 0) then some nanos.toArray else none⟩

def isHighPrecision (store : InstantStore) : Bool := store.nanos.isSome

def read (store : InstantStore) (position : Nat) : Option Instant :=
  match store.seconds[position]? with
  | some seconds =>
    let nanos := store.nanos.elim 0 fun nanos ↦ nanos[position]?.getD 0
    (Instant.ofParts seconds nanos).toOption
  | none => none

end InstantStore

instance : Store InstantStore (Option Instant) where
  size store := store.seconds.size
  read store position := store.read position
  gather store mapping :=
    .ofInstants mapping.size <| mapping.toList.map fun entry ↦
      (Mapping.target? store.seconds.size entry).bind store.read
  pack _ size cells := .ok (.ofInstants size cells)
  sizeLimit _ := Word.elements 8
  valueBytes store := if store.isHighPrecision then 12 else 8

end Columnar
