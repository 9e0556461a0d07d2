import Columnar.Column.Read
import Columnar.Proofs.Layout.Materializing

/-!
# Counting categories

The usage of a nominal column counts, for every index of the dictionary, the rows that read it
(`categoryUsage_eq`). A sparse layout is counted without expanding it: its exceptions one by one and
its default once for all other rows, which is the same because the rows are just these cells.
-/

set_option autoImplicit false
set_option relaxedAutoImplicit false

namespace Columnar

/-- Counting indices one by one adds to each entry how often its index occurs. -/
theorem getElem?_foldl_modify (indices : List Nat) (usage : Array Nat) (index : Nat) :
    (indices.foldl (fun usage index ↦ usage.modify index (· + 1)) usage)[index]? =
      usage[index]?.map (· + indices.count index) := by
  induction indices generalizing usage with
  | nil => simp
  | cons first rest ih =>
    rw [List.foldl_cons, ih, Array.getElem?_modify]
    by_cases h : first = index
    · subst h
      rw [if_pos rfl, Option.map_map, List.count_cons_self]
      congr 1
      funext before
      show before + 1 + rest.count first = before + (rest.count first + 1)
      omega
    · rw [if_neg h, List.count_cons_of_ne h]

/-- How often every index below `size` occurs. -/
def indexCounts (size : Nat) (indices : List Nat) : Array Nat :=
  ((List.range size).map fun index ↦ indices.count index).toArray

theorem getElem?_indexCounts {size index : Nat} (indices : List Nat) :
    (indexCounts size indices)[index]? =
      if index < size then some (indices.count index) else none := by
  unfold indexCounts
  rw [List.getElem?_toArray, List.getElem?_map]
  split
  · next h => rw [List.getElem?_range h, Option.map_some]
  · next h => rw [List.getElem?_eq_none (by simpa using h), Option.map_none]

namespace Layout

variable {layout : Layout IndexArray Nat}

/-- Counting starts from zero everywhere. -/
theorem foldl_modify_zeros (size : Nat) (indices : List Nat) :
    indices.foldl (fun usage index ↦ usage.modify index (· + 1)) (Array.replicate size 0) =
      indexCounts size indices := by
  refine Array.ext_getElem? fun index ↦ ?_
  rw [getElem?_foldl_modify, getElem?_indexCounts, Array.getElem?_replicate]
  split <;> simp

/-- A sparse layout counts its default once for all rows that are not exceptions. -/
theorem foldl_modify_sparse {source : SparseStore IndexArray Nat} (hformed : source.WellFormed)
    (size : Nat) :
    (Store.toList source.exceptions).foldl (fun usage index ↦ usage.modify index (· + 1))
        ((Array.replicate size 0).modify source.default
          (· + (source.size - source.exceptionCount))) =
      indexCounts size (sparse source).rows := by
  refine Array.ext_getElem? fun index ↦ ?_
  rw [getElem?_foldl_modify, getElem?_indexCounts, Array.getElem?_modify, Array.getElem?_replicate,
    rows_sparse hformed, (SparseStore.toList_perm hformed).2.count_eq, List.count_append,
    List.count_replicate]
  by_cases hindex : index < size
  · by_cases hdefault : source.default = index
    · simp [hindex, hdefault, Nat.add_comm]
    · simp [hindex, hdefault]
  · simp [hindex]

end Layout

/-- The usage of a nominal column counts its rows. -/
theorem Column.categoryUsage_eq {type : ColumnType} {layout : Layout IndexArray Nat}
    {dictionary : Shared Dictionary} (hformed : layout.Formed) :
    Column.categoryUsage ⟨type, .categories layout dictionary⟩ =
      .ok (indexCounts dictionary.value.size layout.rows) := by
  have hplain : layout.toArray.foldl (fun usage index ↦ usage.modify index (· + 1))
      (Array.replicate dictionary.value.size 0) =
        indexCounts dictionary.value.size layout.rows := by
    rw [← Array.foldl_toList, Layout.toList_toArray hformed, Layout.foldl_modify_zeros]
  cases layout with
  | dense store => exact congrArg Except.ok hplain
  | mapped store mapping => exact congrArg Except.ok hplain
  | sparse source => exact congrArg Except.ok (Layout.foldl_modify_sparse hformed _)

end Columnar
