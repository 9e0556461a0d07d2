import Columnar.Attempt
import Columnar.Index.Cells
import Columnar.Mapping

/-!
# Arrays of category indices

An `IndexArray` is a list of category indices held in one format; index `0` stands for a missing
value. The physical array always has exactly the length that the format requires. Every way of
storing an index either checks that the format can hold it or gets it from a place that holds it
already. Writers append to an array and widen it when their dictionary outgrows the format; columns
read it. The view of an array is its list of indices, `toList`.
-/

set_option autoImplicit false
set_option relaxedAutoImplicit false

namespace Columnar

structure IndexArray where
  size : Nat
  cells : IndexCells
  fits : cells.Fits size
  deriving DecidableEq, Repr

namespace IndexArray

def format (array : IndexArray) : IndexFormat := array.cells.format

/-- An array of zeros: every position reads as missing. -/
def zeros (format : IndexFormat) (size : Nat) : IndexArray :=
  ⟨size, .zeros format size, IndexCells.fits_zeros format size⟩

def empty (format : IndexFormat) : IndexArray := zeros format 0

/-- An empty array with room for `capacity` indices. -/
def withCapacity (format : IndexFormat) (capacity : Nat) : Outcome IndexArray := do
  Word.requireRoom capacity format.roomLimit
  return empty format

/-- Makes room for more indices, which changes none. -/
def reserve (array : IndexArray) (additional : Nat) : Outcome IndexArray := do
  if array.format.width?.isNone then
    Word.requireRoom (array.size + additional) array.format.roomLimit
  return array

def toList (array : IndexArray) : List Nat := (List.range array.size).map array.cells.get

def get? (array : IndexArray) (position : Nat) : Option Nat :=
  if position < array.size then some (array.cells.get position) else none

@[simp]
theorem length_toList (array : IndexArray) : array.toList.length = array.size := by
  simp [toList]

theorem getElem?_toList (array : IndexArray) (position : Nat) :
    array.toList[position]? = array.get? position := by
  unfold toList get?
  split <;> simp_all

/-- Every index of an array fits the format of the array. -/
theorem fits_of_mem {array : IndexArray} {index : Nat} (h : index ∈ array.toList) :
    array.format.fits index := by
  obtain ⟨position, -, rfl⟩ := List.mem_map.mp h
  exact array.cells.fits_get position

theorem toList_zeros (format : IndexFormat) (size : Nat) :
    (zeros format size).toList = List.replicate size 0 := by
  refine List.ext_getElem? fun position ↦ ?_
  simp [getElem?_toList, get?, zeros, List.getElem?_replicate]

/-- The largest index, `0` for an empty array. -/
def maxIndex (array : IndexArray) : Nat := array.toList.foldl max 0

def byteSize (array : IndexArray) : Nat := array.format.byteLength array.size

/-! ### Storing indices -/

def set (array : IndexArray) (position index : Nat) : Outcome IndexArray :=
  if array.size ≤ position then .error (.outOfBounds position array.size)
  else if array.format.fits index then
    .ok ⟨array.size, array.cells.set position index, array.fits.set position index⟩
  else .error (array.format.overflow index)

/-- A stored index takes the place of the one before. -/
theorem toList_of_set {array result : IndexArray} {position index : Nat}
    (h : array.set position index = .ok result) :
    result.toList = array.toList.set position index := by
  unfold set at h
  split at h
  · contradiction
  · next hposition =>
    split at h
    · next hindex =>
      cases h
      have hget := IndexCells.get_set array.fits (Nat.not_le.mp hposition) hindex
      refine List.ext_getElem? fun other ↦ ?_
      rw [List.getElem?_set, getElem?_toList, getElem?_toList]
      simp only [get?, hget, length_toList]
      grind
    · contradiction

/-- Appends an index that the format can hold. -/
def append (array : IndexArray) (index : Nat) : IndexArray :=
  ⟨array.size + 1, (array.cells.grow array.size).set array.size index,
    array.fits.grow.set array.size index⟩

/-- An appended index comes last. -/
theorem toList_append {array : IndexArray} {index : Nat} (h : array.format.fits index) :
    (array.append index).toList = array.toList ++ [index] := by
  have hgrown : (array.cells.grow array.size).format.fits index := by
    rw [IndexCells.format_grow]; exact h
  have hget := IndexCells.get_set array.fits.grow (Nat.lt_succ_self array.size) hgrown
  simp only [toList, append, List.range_succ, List.map_append, List.map_cons, List.map_nil]
  congr 1
  · refine List.map_congr_left fun position hposition ↦ ?_
    have hlt := List.mem_range.mp hposition
    rw [hget, if_neg (Nat.ne_of_lt hlt), IndexCells.get_grow array.fits hlt]
  · rw [hget, if_pos rfl]

@[simp]
theorem format_append (array : IndexArray) (index : Nat) :
    (array.append index).format = array.format := by
  simp [append, format]

def push (array : IndexArray) (index : Nat) : Attempt IndexArray Unit :=
  if array.format.fits index then .done () (array.append index)
  else .refused (array.format.overflow index) array

/-- The same indices in another format. -/
def recode (array : IndexArray) (format : IndexFormat) : IndexArray :=
  ⟨array.size, .ofFn format array.size array.cells.get, IndexCells.fits_ofFn format _ _⟩

/-- The same indices, when the format can hold them. -/
theorem toList_recode {array : IndexArray} {format : IndexFormat}
    (h : ∀ index ∈ array.toList, format.fits index) :
    (array.recode format).toList = array.toList := by
  have hfits : ∀ position < array.size, format.fits (array.cells.get position) :=
    fun position hposition ↦ h _ (List.mem_map_of_mem (List.mem_range.mpr hposition))
  refine List.map_congr_left fun position hposition ↦ ?_
  exact (IndexCells.get_ofFn hfits position).trans (if_pos (List.mem_range.mp hposition))

@[simp]
theorem format_recode (array : IndexArray) (format : IndexFormat) :
    (array.recode format).format = format := by
  simp [recode, IndexArray.format]

/-- The same indices in a format at least as wide. -/
def widen (array : IndexArray) (format : IndexFormat) : Outcome IndexArray := do
  Fault.require "format" "format.bits() >= self.format.bits()" (array.format.bits ≤ format.bits)
  return if format = array.format then array else array.recode format

/-- As `push`, but an array too narrow for the index is widened first, no more than needed. -/
def pushWidening (array : IndexArray) (index : Nat) : Attempt IndexArray Unit :=
  if array.format.fits index then .done () (array.append index)
  else
    match IndexFormat.narrowest? index with
    | some format => .done () ((array.recode format).append index)
    | none => .refused (IndexFormat.int32.overflow index) array

/-- Stores the indices in order from position `0`. -/
def store (array : IndexArray) (indices : List Nat) : Outcome IndexArray :=
  indices.zipIdx.foldlM (fun array (index, position) ↦ array.set position index) array

def ofList (format : IndexFormat) (indices : List Nat) : Outcome IndexArray :=
  (zeros format indices.length).store indices

/-! ### Raw storage -/

def ofBytes8 (bytes : Array UInt8) : IndexArray := ⟨bytes.size, .uint8 bytes, rfl⟩

def ofShorts (shorts : Array UInt16) : IndexArray := ⟨shorts.size, .uint16 shorts, rfl⟩

def ofInts (ints : List Int) : Outcome IndexArray :=
  match ints.find? (· < 0) with
  | some negative => .error (.invalidArgument "values" s!"negative category index {negative}")
  | none =>
    let words := ints.toArray.map fun index ↦ IndexCells.word index.toNat
    .ok ⟨words.size, .int32 words, rfl⟩

/-! ### Deriving arrays -/

/-- The indices that the mapping shows; where it shows nothing, `0`. -/
def gather (array : IndexArray) (mapping : Mapping) : IndexArray :=
  let shown (row : Nat) : Nat :=
    match mapping.resolve? row array.size with
    | some (some source) => array.cells.get source
    | _ => 0
  ⟨mapping.size, .ofFn array.format mapping.size shown, IndexCells.fits_ofFn _ _ _⟩

/-- Takes every index through a table of targets into another format. -/
def renumber (array : IndexArray) (table : Array Nat) (format : IndexFormat) :
    Outcome IndexArray :=
  (List.range array.size).foldlM
    (fun result position ↦
      let index := array.cells.get position
      match table[index]? with
      | some target => result.set position target
      | none =>
        .error (.invalidArgument "translation" s!"no entry for category index {index}"))
    (zeros format array.size)

end IndexArray

end Columnar
