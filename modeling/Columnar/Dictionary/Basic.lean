import Std.Data.HashMap
import Columnar.Attempt
import Columnar.Index.Format

/-!
# Dictionaries of categories

A dictionary numbers distinct texts from `1` in order of entry; index `0` is reserved for the
missing value, so a dictionary of `n` texts has size `n + 1`. Looking a text up goes through a hash
table, and `index_eq` says that the table answers for every text with its position and for nothing
else. In particular no text has two positions.
-/

set_option autoImplicit false
set_option relaxedAutoImplicit false

namespace Columnar

structure Dictionary where
  texts : Array String
  index : Std.HashMap String Nat
  index_eq : ∀ (text : String) (position : Nat),
    index[text]? = some position ↔ texts[position]? = some text

namespace Dictionary

def empty : Dictionary := ⟨#[], ∅, by simp⟩

/-- The number of entries, the missing one included. -/
def size (dictionary : Dictionary) : Nat := dictionary.texts.size + 1

def maxIndex (dictionary : Dictionary) : Nat := dictionary.texts.size

/-- The text of an index; none for `0` and past the end. -/
def get? (dictionary : Dictionary) : Nat → Option String
  | 0 => none
  | position + 1 => dictionary.texts[position]?

def indexOf? (dictionary : Dictionary) (text : String) : Option Nat :=
  dictionary.index[text]?.map (· + 1)

/-- Appends a text that is not there yet. -/
def push (dictionary : Dictionary) (text : String) (absent : dictionary.index[text]? = none) :
    Dictionary :=
  let position := dictionary.texts.size
  { texts := dictionary.texts.push text
    index := dictionary.index.insert text position
    index_eq := fun other place ↦ by
      have hother := dictionary.index_eq other place
      have hend := dictionary.index_eq text place
      rw [Std.HashMap.getElem?_insert, Array.getElem?_push]
      by_cases hplace : place = dictionary.texts.size <;>
        by_cases htext : text = other <;> simp_all <;> grind }

/-- The same texts in the same order. -/
def agrees (first second : Dictionary) : Bool := first.texts == second.texts

/-- Appends a text unless it is there, and answers with its index. -/
def enter (dictionary : Dictionary) (text : String) : Nat × Dictionary :=
  match h : dictionary.index[text]? with
  | some position => (position + 1, dictionary)
  | none => (dictionary.size, dictionary.push text h)

/-- As `enter`, refusing an index that no format holds. -/
def intern (dictionary : Dictionary) (text : String) : Attempt Dictionary Nat :=
  if dictionary.index.contains text || IndexFormat.int32.fits dictionary.size then
    let (index, entered) := dictionary.enter text
    .done index entered
  else .refused (IndexFormat.int32.overflow dictionary.size) dictionary

/-- The dictionary of distinct texts in this order. -/
def ofList (texts : List String) : Outcome Dictionary := do
  Fault.require "values" "values.len() < i32::MAX as usize"
    (texts.length < IndexFormat.int32.maxIndex)
  texts.foldlM
    (fun dictionary text ↦
      match h : dictionary.index[text]? with
      | some _ =>
        let index := dictionary.size
        .error (.invalidArgument "values" s!"duplicate dictionary value at index {index}")
      | none => .ok (dictionary.push text h))
    empty

end Dictionary

end Columnar
