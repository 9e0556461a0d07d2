import Columnar.Proofs.Column.Reaching
import Columnar.Proofs.Layout.Bounding

/-!
# The readers of a layout

The cells of a layout can be read row by row, written out into an array or collected into a dense
store of the same kind. A sparse layout does each in its own way: it searches its positions for the
row, writes the default and then the exceptions over it, or walks its positions once. A view
resolves its mapping row by row or gathers its store. All of them give the same cells
(`reads_alike`), however the store encodes them; a store need only take the default of a sparse
layout, which is what `DefaultFits` asks of packed indices.
-/

set_option autoImplicit false
set_option relaxedAutoImplicit false

namespace Columnar

namespace Layout

variable {S C : Type} [Cell C] [Store S C]

/-- All readers of the layout give the cells that `get?` gives, and as many. -/
structure ReadsAlike (layout : Layout S C) : Prop where
  /-- The array has a cell for every row. -/
  toArray_size : layout.toArray.size = layout.size
  /-- The array holds the cell of every row. -/
  toArray : ∀ row, layout.toArray[row]? = layout.get? row
  /-- It is written within its bounds, and the exceptions that a search finds suffice. -/
  filled : layout.fill? (Array.replicate layout.size Cell.missing) 0 0 1 id = some layout.toArray
  /-- No position on the way to a row is out of bounds. -/
  inside : ∀ row < layout.size, layout.read? row = layout.get? row
  /-- The rows can be collected, and the store holds the cell of every row. -/
  materialize : ∃ store, layout.materialize = .ok store ∧ Store.size store = layout.size ∧
    ∀ row, Store.get? store row = layout.get? row
  /-- A row of a sparse layout has the exception listed for it, or else the default. -/
  sparse : ∀ source, layout = .sparse source → ∀ row < layout.size,
    (∀ place, source.positions[place]? = some row →
      place < Store.size source.exceptions ∧
        layout.get? row = Store.get? source.exceptions place) ∧
    (row ∉ source.positions.toList → layout.get? row = some source.default)

theorem readsAlike_of_formed [LawfulStore S] {layout : Layout S C} (hformed : layout.Formed)
    (hdefault : layout.TakesDefault) : layout.ReadsAlike := by
  have hrows := toList_toArray hformed
  obtain ⟨store, hstore, -, hcells⟩ := exists_materialize hformed hdefault
  refine ⟨?_, ?_, fill?_eq_some hformed Nat.one_pos, ?_, ⟨store, hstore, ?_, ?_⟩, ?_⟩
  · rw [← Array.length_toList, hrows, length_rows]
  · intro row
    rw [← Array.getElem?_toList, hrows, getElem?_rows]
  · intro row hrow
    rw [read?_eq_some hformed hrow, get?, if_pos hrow]
  · rw [← Store.length_toList, hcells, length_rows]
  · intro row
    rw [← Store.getElem?_toList, hcells, getElem?_rows]
  · rintro source rfl row hrow
    have hget : (sparse source).get? row = some (source.read row) := if_pos hrow
    constructor
    · intro place hplace
      have hlt : place < Store.size source.exceptions := by
        rw [hformed.exceptions]
        exact (Array.getElem?_eq_some_iff.mp hplace).1
      have hfound := (SparseStore.exception?_eq_some_iff hformed.increasing).mpr hplace
      refine ⟨hlt, ?_⟩
      rw [hget, SparseStore.read, hfound, Store.get?_of_lt hlt]
    · intro habsent
      rw [hget, SparseStore.read_eq_default habsent]

end Layout

namespace ColumnData

end ColumnData

end Columnar
