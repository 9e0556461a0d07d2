import Columnar.Proofs.Layout.Deriving
import Columnar.Proofs.Layout.Filling
import Columnar.Proofs.Outcome
import Columnar.Proofs.Sparse.Expanding

/-!
# Reading within bounds and collecting all rows

A layout never reads past the end of its store while a row is one of its own: the read that checks
every position (`Layout.read?`) answers with what the unchecked one reads (`read?_eq_some`). The
rows can be collected into a dense store of the same kind (`exists_materialize`), which for a sparse
layout only depends on whether the default can be stored.
-/

set_option autoImplicit false
set_option relaxedAutoImplicit false

namespace Columnar

variable {S C : Type} [Cell C] [Store S C]

/-! ### Stores that come from another one -/

/-- How a store comes from another: it is the same, or gathered or packed from it. -/
inductive Store.Derived (source : S) : S → Prop
  | itself : Derived source source
  | gathered (mapping : Mapping) : Derived source (Store.gather source mapping)
  | packed {size : Nat} {cells : List C} {store : S}
    (h : Store.pack source size cells = .ok store) : Derived source store

/-- A store takes the same cells as the one it comes from. -/
theorem Store.Derived.takes_iff [LawfulStore S] {source store : S}
    (h : Store.Derived source store) (cell : C) :
    Store.Takes store cell ↔ Store.Takes source cell := by
  cases h with
  | itself => exact Iff.rfl
  | gathered mapping => exact LawfulStore.takes_gather source mapping cell
  | packed h => exact LawfulStore.takes_pack h cell

/-- What is collected is packed. -/
theorem Store.pack_of_collect {prototype store : S} {size : Nat} {cells : List C}
    (h : Store.collect prototype size cells = .ok store) :
    Store.pack prototype size cells = .ok store := by
  obtain ⟨⟨⟩, -, hpack⟩ := Outcome.bind_eq_ok_iff.mp h
  exact hpack

theorem Store.derived_of_collect {prototype store : S} {size : Nat} {cells : List C}
    (h : Store.collect prototype size cells = .ok store) : Store.Derived prototype store :=
  .packed (Store.pack_of_collect h)

theorem Store.get?_of_lt {store : S} {position : Nat} (h : position < Store.size store) :
    Store.get? store position = some (Store.read store position) := if_pos h

theorem Store.getElem?_toList (store : S) (position : Nat) :
    (Store.toList store)[position]? = Store.get? store position :=
  (Layout.dense store).getElem?_rows position

/-- The cells of a gathered store are those that the mapping shows. -/
theorem Store.toList_gather [LawfulStore S] (store : S) (mapping : Mapping) :
    Store.toList (Store.gather store mapping) =
      (List.range mapping.size).map (Layout.readThrough store mapping) := by
  unfold Store.toList
  rw [LawfulStore.size_gather]
  exact List.map_congr_left fun row _ ↦ LawfulStore.read_gather store mapping row

namespace Layout

variable {layout : Layout S C}

/-! ### Reading within bounds -/

/-- The cell of a row, if every position on the way to it exists. -/
def read? (layout : Layout S C) (row : Nat) : Option C :=
  match layout with
  | dense store => Store.get? store row
  | mapped store mapping =>
    match mapping.value.resolve? row (Store.size store) with
    | some (some position) => Store.get? store position
    | some none => some Cell.missing
    | none => none
  | sparse source =>
    if row < source.size then
      match source.exception? row with
      | some place => Store.get? source.exceptions place
      | none => some source.default
    else none

/-- No position on the way to a row is out of bounds. -/
theorem read?_eq_some (hformed : layout.Formed) {row : Nat} (hrow : row < layout.size) :
    layout.read? row = some (layout.read row) := by
  cases layout with
  | dense store => exact Store.get?_of_lt hrow
  | mapped store mapping =>
    show (match mapping.value.resolve? row (Store.size store) with
      | some (some position) => Store.get? store position
      | some none => some Cell.missing
      | none => none) = some (readThrough store mapping.value row)
    unfold readThrough
    cases hshown : mapping.value.resolve? row (Store.size store) with
    | none =>
      have hentry : mapping.value.entries[row]? ≠ none := by
        rw [Array.getElem?_eq_getElem hrow]
        exact Option.some_ne_none _
      exact absurd (Option.map_eq_none_iff.mp hshown) hentry
    | some shown =>
      cases shown with
      | none => rfl
      | some position => exact Store.get?_of_lt (Mapping.lt_of_resolve? hshown).2
  | sparse source =>
    change row < source.size at hrow
    show (if row < source.size then _ else _) = some (source.read row)
    rw [if_pos hrow, SparseStore.read]
    cases hplace : source.exception? row with
    | none => rfl
    | some place =>
      have hposition := (SparseStore.exception?_eq_some_iff hformed.increasing).mp hplace
      have hlt : place < source.positions.size := (Array.getElem?_eq_some_iff.mp hposition).1
      exact Store.get?_of_lt (hformed.exceptions ▸ hlt)

/-! ### Collecting all rows -/

theorem rows_sparse {source : SparseStore S C} (hformed : source.WellFormed) :
    (sparse source).rows = source.toList := (SparseStore.toList_eq_map_read hformed).symm

variable [LawfulStore S]

/-- Every cell of a sparse layout can be stored among its exceptions if the default can. -/
theorem takes_of_mem_rows {source : SparseStore S C}
    (hdefault : Store.Takes source.exceptions source.default) {cell : C}
    (hcell : cell ∈ (sparse source).rows) : Store.Takes source.exceptions cell := by
  obtain ⟨row, -, rfl⟩ := mem_rows_iff.mp hcell
  show Store.Takes source.exceptions (source.read row)
  unfold SparseStore.read
  split
  · exact LawfulStore.takes_read _ _
  · exact hdefault

/-- The rows can be collected into a store that comes from the layout's own. -/
theorem exists_materialize (hformed : layout.Formed) (hdefault : layout.TakesDefault) :
    ∃ store, layout.materialize = .ok store ∧ Store.Derived layout.prototype store ∧
      Store.toList store = layout.rows := by
  cases layout with
  | dense store => exact ⟨store, rfl, .itself, rfl⟩
  | mapped store mapping =>
    exact ⟨_, rfl, .gathered mapping.value, Store.toList_gather store mapping.value⟩
  | sparse source =>
    have hrows := rows_sparse hformed
    obtain ⟨packed, hcollect, hpack⟩ := Store.exists_collect source.exceptions hformed.bounded
      fun cell hcell ↦ takes_of_mem_rows hdefault (hrows ▸ hcell)
    have hlength : source.toList.length = source.size := hrows ▸ length_rows _
    refine ⟨packed, hcollect, .packed hpack, ?_⟩
    rw [Store.toList_pack hpack, Store.fit_of_length_eq hlength, hrows]

end Layout

end Columnar
