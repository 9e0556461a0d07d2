import Std.Data.HashMap
import Columnar.Ingest.Tracked

/-!
# The dominant cell

A census counts the cells of a sequence by their keys. Each key has a slot: a hash table leads to
it, and the slot has the first cell of the key and the number of its cells. `slots_eq` says that the
table leads every key to the slot of its first cell and to nothing else.

The dominant cell of a sequence is the one with the largest count, and of several the one whose slot
comes first.
-/

set_option autoImplicit false
set_option relaxedAutoImplicit false

namespace Columnar

structure Census (C : Type) [Tracked C] where
  slots : Std.HashMap (Tracked.Key C) Nat
  firsts : Array C
  counts : Array Nat
  slots_eq : ∀ (key : Tracked.Key C) (slot : Nat),
    slots[key]? = some slot ↔ firsts[slot]?.map Tracked.key = some key
  size_counts : counts.size = firsts.size

variable {C : Type} [Tracked C]

namespace Census

def empty : Census C := ⟨∅, #[], #[], by simp, rfl⟩

/-- Gives a key that has none the next slot. -/
def enter (census : Census C) (cell : C) (absent : census.slots[Tracked.key cell]? = none) :
    Census C where
  slots := census.slots.insert (Tracked.key cell) census.firsts.size
  firsts := census.firsts.push cell
  counts := census.counts.push 1
  slots_eq key slot := by
    have hslot := census.slots_eq key slot
    have hnew := census.slots_eq (Tracked.key cell) slot
    rw [Std.HashMap.getElem?_insert, Array.getElem?_push]
    by_cases hlast : slot = census.firsts.size <;>
      by_cases hkey : Tracked.key cell = key <;> simp_all <;> grind
  size_counts := by simp [census.size_counts]

/-- Counts a cell in the slot of its key. -/
def add (census : Census C) (cell : C) : Census C :=
  match h : census.slots[Tracked.key cell]? with
  | some slot =>
    { census with
      counts := census.counts.modify slot (· + 1)
      size_counts := by rw [Array.size_modify, census.size_counts] }
  | none => census.enter cell h

/-- The better of the best slot so far, with its count, and the next one. -/
def keepBest (best : Option (Nat × Nat)) : Nat × Nat → Option (Nat × Nat)
  | (count, slot) =>
    match best with
    | some (_, most) => if count ≤ most then best else some (slot, count)
    | none => some (slot, count)

/-- The slot with the largest count, with this count; of several the first. -/
def best? (census : Census C) : Option (Nat × Nat) :=
  census.counts.toList.zipIdx.foldl keepBest none

end Census

/-- The most frequent cell and its number of occurrences; of several the first. -/
def dominant? (cells : List C) : Option (C × Nat) := do
  let census := cells.foldl Census.add .empty
  let (slot, count) ← census.best?
  let cell ← census.firsts[slot]?
  return (cell, count)

end Columnar
