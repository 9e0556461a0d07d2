import Columnar.Proofs.Index.Sizing
import Columnar.Proofs.Index.Storing

/-!
# Index arrays refine bounded lists

Seen from outside an index array is a list of indices under the bound of a format. `BoundedList` is
that list, with the calls that an array has: it knows neither bytes nor fields, and growing and
widening leave its indices where they are. An array that represents a list answers every call as the
list does and represents it again (`Represents.call`). So no run of calls, refused ones included,
tells the two apart (`run_represents`).
-/

set_option autoImplicit false
set_option relaxedAutoImplicit false

namespace Columnar

/-- Both succeed, with related results, or both are refused for the same reason. -/
def Outcome.Alike {α β : Type} (Related : α → β → Prop) : Outcome α → Outcome β → Prop
  | .ok value, .ok other => Related value other
  | .error fault, .error other => fault = other
  | _, _ => False

theorem Outcome.Alike.mono {α β : Type} {Related Weaker : α → β → Prop} {first : Outcome α}
    {second : Outcome β} (h : Outcome.Alike Related first second)
    (hweaker : ∀ value other, Related value other → Weaker value other) :
    Outcome.Alike Weaker first second := by
  cases first with
  | ok value =>
    cases second with
    | ok other => exact hweaker value other h
    | error fault => exact h
  | error fault =>
    cases second with
    | ok other => exact h
    | error other => exact h

/-- How an index array is made: of zeros, empty with room for so many indices, or of a list. -/
inductive IndexOrigin where
  | zeros (format : IndexFormat) (size : Nat)
  | room (format : IndexFormat) (capacity : Nat)
  | indices (format : IndexFormat) (indices : List Nat)

/-- What is asked of an index array. -/
inductive IndexCall where
  | push (index : Nat)
  | set (position index : Nat)
  | reserve (additional : Nat)
  | widen (format : IndexFormat)

theorem IndexFormat.fits_of_bits_le {format other : IndexFormat} (h : format.bits ≤ other.bits)
    {index : Nat} (hindex : format.fits index) : other.fits index := by
  have hle : format.maxIndex ≤ other.maxIndex := by
    cases format <;> cases other <;> revert h <;> decide
  exact fits_iff.mpr (Nat.le_trans (fits_iff.mp hindex) hle)

/-! ### The list -/

/-- A list of indices, and the format whose bound new ones must keep. -/
structure BoundedList where
  format : IndexFormat
  indices : List Nat

namespace BoundedList

/-- A list that is made starts with zeros, empty, or as it was given; a size or a capacity beyond
the limit that the format sets for it is refused, and so is the first index beyond the bound. -/
def ofOrigin : IndexOrigin → Outcome BoundedList
  | .zeros format size =>
    if size ≤ format.sizeLimit then .ok ⟨format, List.replicate size 0⟩ else .error .tooLarge
  | .room format capacity =>
    if capacity ≤ format.roomLimit then .ok ⟨format, []⟩ else .error .tooLarge
  | .indices format indices =>
    match indices.find? (format.maxIndex < ·) with
    | some index => .error (.formatOverflow format.name index format.maxIndex)
    | none => .ok ⟨format, indices⟩

variable (list : BoundedList)

/-- The list with an index put in, which the bound may forbid. -/
def allow (index : Nat) (indices : List Nat) : Outcome BoundedList :=
  if index ≤ list.format.maxIndex then .ok { list with indices }
  else .error (.formatOverflow list.format.name index list.format.maxIndex)

def call : IndexCall → Attempt BoundedList Unit
  | .push index => .replace list (list.allow index (list.indices ++ [index]))
  | .set position index =>
    if list.indices.length ≤ position then
      .refused (.outOfBounds position list.indices.length) list
    else .replace list (list.allow index (list.indices.set position index))
  | .reserve additional =>
    if list.format.width?.isNone ∧ list.format.roomLimit < list.indices.length + additional then
      .refused .tooLarge list
    else .done () list
  | .widen format =>
    if list.format.bits ≤ format.bits then .done () { list with format }
    else .refused (.invalidArgument "format" "format.bits() >= self.format.bits()") list

end BoundedList

namespace IndexArray

/-! ### The array -/

/-- A short array does not count as made: a list has an index for every place. -/
def ofOrigin : IndexOrigin → Outcome IndexArray
  | .zeros format size => do (← IndexBuffer.ofSize format size).whole?
  | .room format capacity => withCapacity format capacity
  | .indices format indices => ofList format indices

def call (array : IndexArray) : IndexCall → Attempt IndexArray Unit
  | .push index => array.push index
  | .set position index => .replace array (array.set position index)
  | .reserve additional => .replace array (array.reserve additional)
  | .widen format => .replace array (array.widen format)

/-- Whatever is read of the array is read of the list, and the physical array is as long as the
format requires for the list. -/
structure Represents (array : IndexArray) (list : BoundedList) : Prop where
  format : array.format = list.format
  size : array.size = list.indices.length
  get : ∀ position, array.get? position = list.indices[position]?
  all : array.toList = list.indices
  largest : array.maxIndex = list.indices.max?.getD 0
  bounded : ∀ index ∈ list.indices, index ≤ list.format.maxIndex
  physical : array.cells.length = IndexCells.lengthFor list.format list.indices.length

variable {array : IndexArray} {list : BoundedList}

theorem maxIndex_eq (array : IndexArray) : array.maxIndex = array.toList.max?.getD 0 := by
  unfold maxIndex
  cases array.toList with
  | nil => rfl
  | cons index rest => rw [List.max?_cons', List.foldl_cons, Nat.zero_max, Option.getD_some]

/-- Format and indices tell everything else. -/
theorem represents_of_toList {format : IndexFormat} {indices : List Nat}
    (hformat : array.format = format) (hall : array.toList = indices) :
    array.Represents ⟨format, indices⟩ := by
  subst hformat hall
  refine ⟨rfl, (length_toList array).symm, fun position ↦ (getElem?_toList array position).symm,
    rfl, maxIndex_eq array, fun index hindex ↦ IndexFormat.fits_iff.mp (fits_of_mem hindex), ?_⟩
  rw [length_toList]
  exact array.fits

/-! ### Making an array -/

/-- Storing stops at the first index that does not fit. -/
theorem storeFrom_of_find? {position index : Nat} {indices : List Nat}
    (hroom : position + indices.length ≤ array.size)
    (h : indices.find? (array.format.maxIndex < ·) = some index) :
    array.storeFrom position indices = .error (array.format.overflow index) := by
  induction indices generalizing array position with
  | nil => contradiction
  | cons first rest ih =>
    rw [List.length_cons] at hroom
    have hposition : position < array.size := by omega
    rw [storeFrom_cons]
    rw [List.find?_cons] at h
    by_cases hfirst : array.format.maxIndex < first
    · have hfits : ¬array.format.fits first := by
        rw [IndexFormat.fits_iff]
        omega
      simp only [hfirst, decide_true, Option.some.injEq] at h
      rw [set, if_neg (Nat.not_le.mpr hposition), if_neg hfits, h]
      rfl
    · simp only [hfirst, decide_false] at h
      obtain ⟨next, hnext⟩ := exists_set hposition (IndexFormat.fits_iff.mpr (Nat.not_lt.mp hfirst))
      obtain ⟨hsize, hformat, -⟩ := of_set hnext
      rw [hnext, Outcome.ok_bind, ← hformat]
      exact ih (by omega) (hformat ▸ h)

theorem format_zeros (format : IndexFormat) (size : Nat) : (zeros format size).format = format :=
  IndexCells.format_zeros format size

theorem represents_zeros (format : IndexFormat) (size : Nat) :
    (zeros format size).Represents ⟨format, List.replicate size 0⟩ :=
  represents_of_toList (format_zeros format size) (toList_zeros format size)

/-- An array and a list that are made the same way agree, or are refused for the same reason. -/
theorem alike_ofOrigin (origin : IndexOrigin) :
    Outcome.Alike Represents (ofOrigin origin) (BoundedList.ofOrigin origin) := by
  cases origin with
  | zeros format size =>
    show Outcome.Alike Represents (IndexBuffer.ofSize format size >>= IndexBuffer.whole?) _
    rw [IndexBuffer.whole?_ofSize, BoundedList.ofOrigin]
    split
    · exact represents_zeros format size
    · rfl
  | room format capacity =>
    simp only [ofOrigin, BoundedList.ofOrigin, withCapacity, Word.requireRoom]
    split
    · exact represents_zeros format 0
    · rfl
  | indices format indices =>
    have hroom : 0 + indices.length ≤ (zeros format indices.length).size := by
      rw [Nat.zero_add]
      exact Nat.le_refl _
    show Outcome.Alike Represents ((zeros format indices.length).storeFrom 0 indices) _
    simp only [BoundedList.ofOrigin]
    cases hfind : indices.find? (format.maxIndex < ·) with
    | some index =>
      rw [storeFrom_of_find? hroom (by rw [format_zeros]; exact hfind), format_zeros]
      rfl
    | none =>
      have hfits : ∀ index ∈ indices, (zeros format indices.length).format.fits index := by
        intro index hindex
        have hle := List.find?_eq_none.mp hfind index hindex
        rw [format_zeros, IndexFormat.fits_iff]
        simpa using hle
      obtain ⟨array, harray⟩ := exists_store (Nat.le_refl _) hfits
      obtain ⟨-, hformat, -, hall⟩ := of_store (Nat.le_refl _) harray
      rw [show (zeros format indices.length).storeFrom 0 indices = .ok array from harray]
      apply represents_of_toList (hformat.trans (format_zeros _ _))
      rw [hall, toList_zeros, List.drop_replicate, Nat.sub_self, List.replicate_zero,
        List.append_nil]

/-! ### Calls -/

/-- Related machines that are replaced alike answer alike and stay related. -/
theorem replace_alike {next : Outcome IndexArray} {model : Outcome BoundedList}
    (h : array.Represents list) (halike : Outcome.Alike Represents next model) :
    (Attempt.replace array next).outcome = (Attempt.replace list model).outcome ∧
      (Attempt.replace array next).state.Represents (Attempt.replace list model).state := by
  cases next with
  | ok next =>
    cases model with
    | ok model => exact ⟨rfl, halike⟩
    | error fault => exact absurd halike id
  | error fault =>
    cases model with
    | ok model => exact absurd halike id
    | error other =>
      cases halike
      exact ⟨rfl, h⟩

/-- The list admits an index exactly when the array can store it. -/
theorem alike_allow {index : Nat} {indices : List Nat} {next : IndexArray}
    (hformat : next.format = array.format)
    (hall : array.format.fits index → next.toList = indices) :
    Outcome.Alike Represents
      (if array.format.fits index then .ok next else .error (array.format.overflow index))
      (BoundedList.allow ⟨array.format, array.toList⟩ index indices) := by
  unfold BoundedList.allow
  by_cases hindex : index ≤ array.format.maxIndex
  · have hfits := IndexFormat.fits_iff.mpr hindex
    rw [if_pos hfits, if_pos hindex]
    exact represents_of_toList hformat (hall hfits)
  · rw [if_neg fun h ↦ hindex (IndexFormat.fits_iff.mp h), if_neg hindex]
    rfl

theorem push_eq_replace (array : IndexArray) (index : Nat) :
    array.push index = .replace array
      (if array.format.fits index then .ok (array.append index)
        else .error (array.format.overflow index)) := by
  unfold push
  split <;> rfl

/-- Every call of an array is the call of the list that it represents. -/
theorem Represents.call (h : array.Represents list) (call : IndexCall) :
    (array.call call).outcome = (list.call call).outcome ∧
      (array.call call).state.Represents (list.call call).state := by
  obtain ⟨format, indices⟩ := list
  obtain rfl : array.format = format := h.format
  obtain rfl : array.toList = indices := h.all
  cases call with
  | push index =>
    show (array.push index).outcome = _ ∧ (array.push index).state.Represents _
    rw [push_eq_replace]
    exact replace_alike h (alike_allow (format_append array index) toList_append)
  | set position index =>
    simp only [IndexArray.call, BoundedList.call, length_toList]
    by_cases hposition : array.size ≤ position
    · rw [set, if_pos hposition, if_pos hposition]
      exact ⟨rfl, h⟩
    · rw [if_neg hposition]
      obtain ⟨next, hnext⟩ : ∃ next : IndexArray, next =
        ⟨array.size, array.cells.set position index, array.fits.set position index⟩ := ⟨_, rfl⟩
      have hformat : next.format = array.format := by
        rw [hnext]
        exact IndexCells.format_set _ _ _
      have hset : array.set position index = if array.format.fits index then .ok next
          else .error (array.format.overflow index) := by
        rw [set, if_neg hposition, hnext]
      rw [hset]
      apply replace_alike h
      apply alike_allow hformat
      intro hfits
      rw [if_pos hfits] at hset
      exact toList_of_set hset
  | reserve additional =>
    simp only [IndexArray.call, BoundedList.call, length_toList, reserve, Word.requireRoom]
    by_cases hwide : array.format.width?.isNone
    · by_cases hroom : array.size + additional ≤ array.format.roomLimit
      · rw [if_pos hwide, if_pos hroom, if_neg (by simp [hroom])]
        exact ⟨rfl, h⟩
      · rw [if_pos hwide, if_neg hroom, if_pos ⟨hwide, Nat.lt_of_not_le hroom⟩]
        exact ⟨rfl, h⟩
    · rw [if_neg hwide, if_neg (by simp [hwide])]
      exact ⟨rfl, h⟩
  | widen format =>
    simp only [IndexArray.call, BoundedList.call]
    by_cases hbits : array.format.bits ≤ format.bits
    · obtain ⟨next, hnext, hall, hformat⟩ := exists_widen hbits fun index hindex ↦
        IndexFormat.fits_of_bits_le hbits (fits_of_mem hindex)
      rw [hnext, if_pos hbits]
      exact ⟨rfl, represents_of_toList hformat hall⟩
    · have hrefused : array.widen format = .error
          (.invalidArgument "format" "format.bits() >= self.format.bits()") := by
        rw [widen, Fault.require, if_neg (by simpa using hbits)]
        rfl
      rw [hrefused, if_neg hbits]
      exact ⟨rfl, h⟩

/-- However an array is made and whatever is asked of it, in any order and refused calls included:
it answers as the bounded list does, and at every moment all that is read of it is what the list
says. Sizes and capacities are never refused below twice the row limit. -/
theorem run_represents (origin : IndexOrigin) :
    Outcome.Alike
      (fun array list ↦ ∀ calls,
        (Attempt.takeAll IndexArray.call array calls).1 =
            (Attempt.takeAll BoundedList.call list calls).1 ∧
          (Attempt.takeAll IndexArray.call array calls).2.Represents
            (Attempt.takeAll BoundedList.call list calls).2)
      (ofOrigin origin) (BoundedList.ofOrigin origin) ∧
    ∀ format : IndexFormat, 2 * rowLimit ≤ format.sizeLimit := by
  refine ⟨?_, fun format ↦ by cases format <;> decide⟩
  refine (alike_ofOrigin origin).mono ?_
  intro array list h calls
  exact Attempt.takeAll_simulates IndexArray.call (fun _ _ call h ↦ h.call call) h calls

end IndexArray

end Columnar
