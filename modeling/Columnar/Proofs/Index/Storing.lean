import Columnar.Index.Array
import Columnar.Proofs.Outcome

/-!
# Storing and deriving index arrays

Storing a list of indices from position `0` on succeeds exactly when every index fits the format,
and then the front of the array holds the list. An index array is known, as far as any reader can
tell, by its format and its list of indices. Renumbering an array through a table that covers it is
storing the targets (`renumber_eq_store`).
-/

set_option autoImplicit false
set_option relaxedAutoImplicit false

namespace Columnar

/-! ### Formats -/

namespace IndexFormat

/-- The narrowest format is no wider than any other that holds the index. -/
theorem bits_le_of_narrowest? {index : Nat} {format other : IndexFormat}
    (h : narrowest? index = some format) (hother : other.fits index) :
    format.bits ≤ other.bits := by
  rw [fits_iff] at hother
  simp only [narrowest?, all, List.find?_cons, List.find?_nil] at h
  cases other <;> simp only [maxIndex] at hother <;> grind [fits, maxIndex, bits]

theorem fits_of_narrowest? {index : Nat} {format : IndexFormat}
    (h : narrowest? index = some format) : format.fits index := by
  unfold narrowest? at h
  have hfound := List.find?_some h
  exact hfound

theorem fits_of_ofDictionarySize {size : Nat} {format : IndexFormat}
    (h : ofDictionarySize size = .ok format) : format.fits (size - 1) := by
  unfold ofDictionarySize at h
  split at h
  · next other hother =>
    cases h
    exact fits_of_narrowest? hother
  · contradiction

theorem exists_narrowest? {index : Nat} (h : int32.fits index) :
    ∃ format, narrowest? index = some format ∧ format.fits index := by
  cases hfind : narrowest? index with
  | none =>
    have hnone := List.find?_eq_none.mp hfind int32 (by decide)
    exact absurd h hnone
  | some format => exact ⟨format, rfl, fits_of_narrowest? hfind⟩

theorem fits_of_le {format : IndexFormat} {first second : Nat} (h : format.fits second)
    (hle : first ≤ second) : format.fits first := by
  rw [fits_iff] at h ⊢
  exact Nat.le_trans hle h

/-- A dictionary has a format as long as its last index has. -/
theorem exists_ofDictionarySize {size : Nat} (h : int32.fits (size - 1)) :
    ∃ format, ofDictionarySize size = .ok format := by
  obtain ⟨format, hformat, -⟩ := exists_narrowest? h
  refine ⟨format, ?_⟩
  unfold ofDictionarySize ofDictionarySize?
  rw [hformat]

/-- No format holds an index that the widest one does not. -/
theorem fits_int32 {format : IndexFormat} {index : Nat} (h : format.fits index) :
    int32.fits index := by
  refine fits_iff.mpr (Nat.le_trans (fits_iff.mp h) ?_)
  cases format <;> decide

/-- A dictionary with a last index beyond every format is refused. -/
theorem ofDictionarySize_of_not_fits {size : Nat} (h : ¬int32.fits (size - 1)) :
    ofDictionarySize size = .error (int32.overflow (size - 1)) := by
  have hnone : narrowest? (size - 1) = none :=
    List.find?_eq_none.mpr fun format _ hfits ↦ h (fits_int32 hfits)
  unfold ofDictionarySize ofDictionarySize?
  rw [hnone]

end IndexFormat

namespace IndexArray

/-! ### Setting one index -/

theorem exists_set {array : IndexArray} {position index : Nat} (hposition : position < array.size)
    (hindex : array.format.fits index) : ∃ result, array.set position index = .ok result := by
  unfold set
  rw [if_neg (Nat.not_le.mpr hposition), if_pos hindex]
  exact ⟨_, rfl⟩

/-- A set that succeeds keeps size and format, and its index fits. -/
theorem of_set {array result : IndexArray} {position index : Nat}
    (h : array.set position index = .ok result) :
    result.size = array.size ∧ result.format = array.format ∧ array.format.fits index := by
  unfold set at h
  split at h
  · contradiction
  · split at h
    · next hindex =>
      cases h
      exact ⟨rfl, IndexCells.format_set _ _ _, hindex⟩
    · contradiction

/-! ### Storing a list -/

/-- Storing from a position on. -/
def storeFrom (array : IndexArray) (position : Nat) (indices : List Nat) : Outcome IndexArray :=
  (indices.zipIdx position).foldlM (fun array (index, place) ↦ array.set place index) array

theorem storeFrom_cons (array : IndexArray) (position index : Nat) (indices : List Nat) :
    array.storeFrom position (index :: indices) =
      array.set position index >>= fun next ↦ next.storeFrom (position + 1) indices := rfl

theorem exists_storeFrom {array : IndexArray} {position : Nat} {indices : List Nat}
    (hroom : position + indices.length ≤ array.size)
    (hindices : ∀ index ∈ indices, array.format.fits index) :
    ∃ result, array.storeFrom position indices = .ok result := by
  induction indices generalizing array position with
  | nil => exact ⟨array, rfl⟩
  | cons index indices ih =>
    rw [List.length_cons] at hroom
    have hposition : position < array.size := by omega
    obtain ⟨next, hnext⟩ := exists_set hposition (hindices index (by simp))
    obtain ⟨hsize, hformat, -⟩ := of_set hnext
    rw [storeFrom_cons, hnext]
    apply ih (by omega)
    intro other hother
    rw [hformat]
    exact hindices other (by simp [hother])

/-- What storing from a position on leaves behind: the front, the list, and the rest. -/
theorem of_storeFrom {array result : IndexArray} {position : Nat} {indices : List Nat}
    (hroom : position + indices.length ≤ array.size)
    (h : array.storeFrom position indices = .ok result) :
    result.size = array.size ∧ result.format = array.format ∧
      (∀ index ∈ indices, array.format.fits index) ∧
      result.toList =
        array.toList.take position ++ indices ++ array.toList.drop (position + indices.length) := by
  induction indices generalizing array position with
  | nil =>
    cases h
    simp
  | cons index indices ih =>
    rw [List.length_cons] at hroom
    rw [storeFrom_cons] at h
    cases hset : array.set position index with
    | error fault => rw [hset] at h; contradiction
    | ok next =>
      rw [hset] at h
      obtain ⟨hsize, hformat, hindex⟩ := of_set hset
      obtain ⟨hsize', hformat', hindices, hlist⟩ := ih (by omega) h
      have hnext := toList_of_set hset
      refine ⟨hsize'.trans hsize, hformat'.trans hformat, ?_, ?_⟩
      · intro other hother
        rcases List.mem_cons.mp hother with rfl | hother
        · exact hindex
        · rw [← hformat]
          exact hindices other hother
      · have hlt : position < array.toList.length := by rw [length_toList]; omega
        have hmin : min position array.size = position := Nat.min_eq_left (by omega)
        have hfront : next.toList.take (position + 1) = array.toList.take position ++ [index] := by
          rw [hnext, List.take_set, List.take_add_one, List.getElem?_eq_getElem hlt,
            Option.toList_some, List.set_append_right _ _ (List.length_take_le _ _)]
          simp [hmin]
        have hback : next.toList.drop (position + 1 + indices.length) =
            array.toList.drop (position + (indices.length + 1)) := by
          rw [hnext, List.drop_set_of_lt (by omega)]
          congr 1
          omega
        rw [hlist, hfront, hback]
        simp

theorem exists_store {array : IndexArray} {indices : List Nat}
    (hroom : indices.length ≤ array.size) (hindices : ∀ index ∈ indices, array.format.fits index) :
    ∃ result, array.store indices = .ok result :=
  exists_storeFrom (by omega) hindices

theorem of_store {array result : IndexArray} {indices : List Nat}
    (hroom : indices.length ≤ array.size) (h : array.store indices = .ok result) :
    result.size = array.size ∧ result.format = array.format ∧
      (∀ index ∈ indices, array.format.fits index) ∧
      result.toList = indices ++ array.toList.drop indices.length := by
  obtain ⟨hsize, hformat, hindices, hlist⟩ := of_storeFrom
    (Nat.le_trans (Nat.le_of_eq (Nat.zero_add _)) hroom) h
  exact ⟨hsize, hformat, hindices, by simpa using hlist⟩

/-! ### Widening -/

/-- Widening to a format that holds all indices keeps them. -/
theorem exists_widen {array : IndexArray} {format : IndexFormat}
    (hbits : array.format.bits ≤ format.bits)
    (hindices : ∀ index ∈ array.toList, format.fits index) :
    ∃ result, array.widen format = .ok result ∧ result.toList = array.toList ∧
      result.format = format := by
  unfold widen Fault.require
  rw [if_pos (by simpa using hbits)]
  by_cases hformat : format = array.format
  · exact ⟨array, by rw [if_pos hformat]; rfl, rfl, hformat.symm⟩
  · exact ⟨array.recode format, by rw [if_neg hformat]; rfl, toList_recode hindices,
      format_recode array format⟩

/-! ### Renumbering -/

/-- A table that names a target for every index renumbers the array by storing the targets. -/
theorem renumber_eq_store {array : IndexArray} {table : Array Nat} (format : IndexFormat)
    (h : ∀ index ∈ array.toList, index < table.size) :
    array.renumber table format =
      (zeros format array.size).store (array.toList.map fun index ↦ table[index]?.getD 0) := by
  have hplaces : (array.toList.map fun index ↦ table[index]?.getD 0).zipIdx =
      (List.range array.size).map fun position ↦
        (table[array.cells.get position]?.getD 0, position) := by
    refine List.ext_getElem? fun position ↦ ?_
    rw [toList, List.map_map, List.getElem?_zipIdx, List.getElem?_map, List.getElem?_map]
    by_cases hposition : position < array.size
    · rw [List.getElem?_range hposition]
      simp
    · rw [List.getElem?_eq_none (by simpa using hposition)]
      rfl
  unfold renumber store
  rw [hplaces, List.foldlM_map]
  refine Outcome.foldlM_congr (fun result position hposition ↦ ?_) _
  have hindex := h _ (List.mem_map_of_mem hposition)
  simp only [Array.getElem?_eq_getElem hindex, Option.getD_some]

/-- A table whose targets fit takes every index to its target. -/
theorem exists_renumber {array : IndexArray} {table : Array Nat} {format : IndexFormat}
    (h : ∀ index ∈ array.toList, index < table.size)
    (htargets : ∀ target ∈ table.toList, format.fits target) :
    ∃ result, array.renumber table format = .ok result ∧ result.format = format ∧
      result.toList = array.toList.map fun index ↦ table[index]?.getD 0 := by
  have hzeros : (zeros format array.size).format = format := IndexCells.format_zeros _ _
  have hroom : (array.toList.map fun index ↦ table[index]?.getD 0).length ≤
      (zeros format array.size).size := by
    rw [List.length_map, length_toList]
    exact Nat.le_refl _
  obtain ⟨result, hresult⟩ := exists_store hroom fun target htarget ↦ by
    obtain ⟨index, hindex, rfl⟩ := List.mem_map.mp htarget
    have hlt := h index hindex
    rw [hzeros, Array.getElem?_eq_getElem hlt, Option.getD_some]
    exact htargets _ (Array.mem_toList_iff.mpr (Array.getElem_mem hlt))
  obtain ⟨-, hformat, -, hlist⟩ := of_store hroom hresult
  refine ⟨result, (renumber_eq_store format h).trans hresult, hformat.trans hzeros, ?_⟩
  rw [hlist, toList_zeros, List.drop_replicate, List.length_map, length_toList, Nat.sub_self,
    List.replicate_zero, List.append_nil]

/-! ### What is read -/

theorem fits_getD_get? (array : IndexArray) (position : Nat) :
    array.format.fits ((array.get? position).getD 0) := by
  unfold get?
  split
  · exact array.cells.fits_get position
  · simp [IndexFormat.fits_iff]

@[simp]
theorem format_gather (array : IndexArray) (mapping : Mapping) :
    (array.gather mapping).format = array.format := by
  simp [gather, IndexArray.format]

/-- A gathered array reads what the mapping shows, and `0` where it shows nothing. -/
theorem get?_gather (array : IndexArray) (mapping : Mapping) (row : Nat) :
    ((array.gather mapping).get? row).getD 0 =
      match mapping.resolve? row array.size with
      | some (some source) => (array.get? source).getD 0
      | _ => 0 := by
  unfold gather
  simp only [get?]
  rw [IndexCells.get_ofFn]
  · by_cases hrow : row < mapping.size
    · rw [if_pos hrow, if_pos hrow, Option.getD_some]
      cases hshown : mapping.resolve? row array.size with
      | none => rfl
      | some shown =>
        cases shown with
        | none => rfl
        | some source =>
          obtain ⟨entry, -, hentry⟩ := Option.map_eq_some_iff.mp hshown
          simp only [if_pos (Mapping.target?_eq_some_iff.mp hentry).2, Option.getD_some]
    · rw [if_neg hrow, Option.getD_none]
      have hnone : mapping.resolve? row array.size = none := by
        simp [Mapping.resolve?, Array.getElem?_eq_none (Nat.not_lt.mp hrow)]
      rw [hnone]
  · intro position _
    split
    · exact array.cells.fits_get _
    · simp [IndexFormat.fits_iff]

end IndexArray

end Columnar
