import Columnar.Store.Encoded
import Columnar.Store.Plain

/-!
# Cells under accumulation

A tracked cell has a key that decides whether it is the same as another, and a buffer in which
densely written cells wait. Category indices wait packed, in a format that widens as they grow.
-/

set_option autoImplicit false
set_option relaxedAutoImplicit false

namespace Columnar

class Tracked (C : Type) extends Cell C where
  Key : Type
  keyEq : DecidableEq Key := by infer_instance
  keyHash : Hashable Key := by infer_instance
  /-- Equal for the same cell only. -/
  key : C → Key
  Buffer : Type
  emptyBuffer : Buffer
  append : Buffer → C → Attempt Buffer Unit
  contents : Buffer → List C
  /-- The largest number of cells that a buffer can make room for. -/
  sizeLimit : Buffer → Nat

instance {C : Type} [Tracked C] : DecidableEq (Tracked.Key C) := Tracked.keyEq

instance {C : Type} [Tracked C] : Hashable (Tracked.Key C) := Tracked.keyHash

instance : Tracked Binary64 where
  Key := UInt64
  key := Binary64.key
  Buffer := Array Binary64
  emptyBuffer := #[]
  append buffer cell := .done () (buffer.push cell)
  contents buffer := buffer.toList
  sizeLimit _ := Word.elements 8

instance : Tracked Int where
  Key := Int
  key := id
  Buffer := Array Int
  emptyBuffer := #[]
  append buffer cell := .done () (buffer.push cell)
  contents buffer := buffer.toList
  sizeLimit _ := Word.elements 8

instance : Tracked Nat where
  Key := Nat
  key := id
  Buffer := IndexArray
  emptyBuffer := .empty .uint2
  append := IndexArray.pushWidening
  contents := IndexArray.toList
  sizeLimit buffer := buffer.format.roomLimit

instance : Tracked (Option Instant) where
  Key := Option Instant
  key := id
  Buffer := Array (Option Instant)
  emptyBuffer := #[]
  append buffer cell := .done () (buffer.push cell)
  contents buffer := buffer.toList
  sizeLimit _ := Word.elements 24

variable {C : Type} [Tracked C]

def Tracked.sameKey (first second : C) : Bool := Tracked.key first == Tracked.key second

/-- An empty buffer with room for `capacity` cells. -/
def Tracked.withCapacity (capacity : Nat) : Outcome (Tracked.Buffer C) := do
  Word.requireRoom capacity (Tracked.sizeLimit (Tracked.emptyBuffer : Tracked.Buffer C))
  return Tracked.emptyBuffer

/-- A buffer of these cells, made with room for `capacity`. -/
def Tracked.bufferOf (capacity : Nat) (cells : List C) : Outcome (Tracked.Buffer C) := do
  let buffer ← Tracked.withCapacity capacity
  (Attempt.runAll Tracked.append (fun _ _ ↦ ()) buffer cells).reached

end Columnar
