import Columnar.Dictionary.Basic
import Columnar.Identity

/-!
# Reconciling dictionaries

Reordering, uniting and compacting a dictionary each give a new dictionary together with a
`Renumbering`, the table that takes every index of the source to its index in the result. A column
renumbered through the table says what it said before.
-/

set_option autoImplicit false
set_option relaxedAutoImplicit false

namespace Columnar

/-- Index `i` becomes `targets[i]`. -/
structure Renumbering where
  targets : Array Nat
  deriving DecidableEq, Repr

namespace Renumbering

/-- The table that keeps every index. The size is read as a 32-bit word. -/
def identity (size : Nat) : Renumbering := ⟨Array.range (size % 4294967296)⟩

def size (renumbering : Renumbering) : Nat := renumbering.targets.size

def get? (renumbering : Renumbering) (index : Nat) : Option Nat := renumbering.targets[index]?

def toList (renumbering : Renumbering) : List Nat := renumbering.targets.toList

def isIdentity (renumbering : Renumbering) : Bool :=
  renumbering.toList.zipIdx.all fun (target, index) ↦ target == index

def maxTarget (renumbering : Renumbering) : Nat := renumbering.toList.foldl max 0

end Renumbering

namespace Dictionary

/-- Puts each text into the slot that the permutation names for it, refusing an invalid slot and one
that is taken. -/
def permuteInto (slots : Array (Option String)) :
    List (String × Nat × Nat) → Outcome (Array (Option String))
  | [] => .ok slots
  | (text, new, old) :: rest =>
    if new = 0 || slots.size < new then
      .error (.invalidArgument "permutation" s!"index {old} mapped to invalid position {new}")
    else if (slots[new - 1]?.join).isSome then
      .error (.invalidArgument "permutation" s!"position {new} assigned twice")
    else permuteInto (slots.setIfInBounds (new - 1) (some text)) rest

/-- Moves the text at index `i` to `permutation[i]`, for a permutation that keeps `0`. -/
def remap (dictionary : Dictionary) (permutation : List Nat) :
    Outcome (Dictionary × Renumbering) := do
  Fault.require "permutation" "permutation.len() == self.size()"
    (permutation.length = dictionary.size)
  Fault.require "permutation" "permutation[0] == 0" (permutation.head? = some 0)
  let moves := dictionary.texts.toList.zip (permutation.tail.zipIdx 1)
  let slots ← permuteInto (Array.replicate dictionary.texts.size none) moves
  let remapped ← ofList (slots.toList.filterMap id)
  return (remapped, ⟨permutation.toArray⟩)

/-- Enters the texts in order, collecting their indices after those collected already. -/
def enterAll (dictionary : Dictionary) (indices : Array Nat) :
    List String → Dictionary × Array Nat
  | [] => (dictionary, indices)
  | text :: rest =>
    let (index, entered) := dictionary.enter text
    entered.enterAll (indices.push index) rest

/-- Appends the texts that only `other` has. The renumbering is for the indices of `other`. -/
def merge (dictionary other : Dictionary) : Dictionary × Renumbering :=
  let (merged, targets) := dictionary.enterAll #[0] other.texts.toList
  (merged, ⟨targets⟩)

/-- Numbers the used entries from `next`; the others become `0`. -/
def compactTargets (next : Nat) : List Nat → List Nat
  | [] => []
  | count :: rest => if 0 < count then next :: compactTargets (next + 1) rest
    else 0 :: compactTargets next rest

/-- Drops the entries that occur nowhere, given how often each index occurs. When there are none to
drop, the answer is the very same dictionary. -/
def compact (dictionary : Shared Dictionary) (usage : List Nat) (fresh : Token) :
    Outcome (Shared Dictionary × Renumbering) := do
  let texts := dictionary.value.texts.toList
  Fault.require "usage" "usage.len() == self.size()" (usage.length = dictionary.value.size)
  if usage.tail.all (0 < ·) then
    return (dictionary, .identity dictionary.value.size)
  let kept := (texts.zip usage.tail).filterMap fun (text, count) ↦
    if 0 < count then some text else none
  let compacted ← ofList kept
  return (⟨fresh, compacted⟩, ⟨(0 :: compactTargets 1 usage.tail).toArray⟩)

end Dictionary

end Columnar
