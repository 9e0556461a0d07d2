import Columnar.Proofs.Column.Counting
import Columnar.Proofs.Column.Ordering
import Columnar.Proofs.Column.Reaching

/-!
# Soundness of columns

A reachable column is sound (`sound_of_reachable`): the gate would accept it again, and nothing that
reads it can fail on what it stores. Every read stays within its stores, sorting compares by a total
preorder, the usage of a nominal column counts every row in an entry of its own, and all rows can be
collected into a dense store.
-/

set_option autoImplicit false
set_option relaxedAutoImplicit false

namespace Columnar

/-- A formed layout that takes its default has an exception for each position, reads every row, and
can be collected. -/
theorem Layout.sound_of_formed {S C : Type} [Cell C] [Store S C] [LawfulStore S]
    (layout : Layout S C) (hformed : layout.Formed) (hdefault : layout.TakesDefault) :
    (∀ source, layout = .sparse source →
      source.WellFormed ∧ source.exceptionCount ≤ source.size) ∧
    (∀ row < layout.size, layout.read? row = some (layout.read row)) ∧
    ∃ store, layout.materialize = .ok store ∧ Store.toList store = layout.rows := by
  refine ⟨?_, fun row hrow ↦ read?_eq_some hformed hrow, ?_⟩
  · rintro source rfl
    exact ⟨hformed, (SparseStore.toList_perm hformed).1⟩
  · obtain ⟨store, hstore, -, hrows⟩ := exists_materialize hformed hdefault
    exact ⟨store, hstore, hrows⟩

namespace Column

/-- What can be relied on in a column. -/
structure Sound (column : Column) : Prop where
  /-- The gate accepts the data again. -/
  accepted : ofData column.type column.data = .ok column
  /-- Sparse positions increase, stay below the size, and have an exception each. -/
  sparse : column.data.onLayout fun layout ↦ ∀ source, layout = .sparse source →
    source.WellFormed ∧ source.exceptionCount ≤ source.size
  /-- The format holds the last index of the dictionary, and indices do not pass it. -/
  categories : ∀ layout dictionary, column.data = .categories layout dictionary →
    layout.prototype.format.fits dictionary.value.maxIndex ∧
      (∀ index ∈ storedCells layout, index < dictionary.value.size) ∧
      ∀ row, layout.read row < dictionary.value.size
  /-- The finite numbers of an integer column are integral. -/
  integers : column.type = .integer → ∀ layout, column.data = .numbers layout →
    (∀ number ∈ storedCells layout, number.isFinite → number.isIntegral) ∧
      ∀ row, (layout.read row).isFinite → (layout.read row).isIntegral
  /-- Every row has a value, and no position on the way to it is out of bounds. -/
  reads : ∀ row < column.size,
    (column.data.onLayout fun layout ↦ layout.read? row = some (layout.read row)) ∧
      ∃ value, column.get row = .ok value
  /-- Instants have all their nanoseconds or none. -/
  parallel : column.data.Parallel
  /-- Sorting compares rows by a total preorder and succeeds. -/
  sorts : column.type.supports .sortable → column.size ≤ rowLimit → ∀ order,
    Ordered (List.range column.size) column.data.compareRows ∧
      ∃ permutation, column.sort order = .ok permutation
  /-- The usage of a nominal column has an entry for every index. -/
  counts : column.type = .nominal → ∃ layout dictionary,
    column.data = .categories layout dictionary ∧
      column.categoryUsage = .ok (indexCounts dictionary.value.size layout.rows)
  /-- All rows can be collected. -/
  materializes : column.data.onLayout fun layout ↦
    ∃ store, layout.materialize = .ok store ∧ Store.toList store = layout.rows

/-- Valid data over formed layouts makes a sound column. -/
theorem sound_of_valid {column : Column} (hvalid : column.data.Valid column.type)
    (hbuilt : column.data.WellBuilt) : column.Sound := by
  have hformed := hbuilt.formed
  have hdefault := hvalid.takesDefault
  obtain ⟨hsparse, hreads, hmaterializes⟩ :
      (column.data.onLayout fun layout ↦ ∀ source, layout = .sparse source →
        source.WellFormed ∧ source.exceptionCount ≤ source.size) ∧
      (∀ row < column.size,
        column.data.onLayout fun layout ↦ layout.read? row = some (layout.read row)) ∧
      column.data.onLayout fun layout ↦
        ∃ store, layout.materialize = .ok store ∧ Store.toList store = layout.rows := by
    obtain ⟨type, data⟩ := column
    cases data with
    | numbers layout => exact layout.sound_of_formed hformed hdefault
    | times layout => exact layout.sound_of_formed hformed hdefault
    | instants layout => exact layout.sound_of_formed hformed hdefault
    | categories layout dictionary => exact layout.sound_of_formed hformed hdefault
    | objects layout => exact layout.sound_of_formed hformed hdefault
  refine ⟨ofData_of_valid hvalid, hsparse, ?_, ?_, fun row hrow ↦ ⟨hreads row hrow, _,
    get_of_lt hrow⟩, hbuilt.parallel, ?_, ?_, hmaterializes⟩
  · intro layout dictionary hdata
    rw [hdata] at hvalid
    exact ⟨hvalid.stores.1, fun index hindex ↦ Nat.lt_succ_of_le (hvalid.stores.2 index hindex),
      read_lt_size hvalid⟩
  · intro hinteger layout hdata
    rw [hdata, hinteger] at hvalid
    exact ⟨hvalid.stores rfl, fun row ↦ read_isIntegral hvalid⟩
  · intro hsortable hsize order
    obtain ⟨rows, hsort, -, -⟩ := exists_sort order hvalid hformed hsortable hsize
    exact ⟨ColumnData.ordered_compareRows hvalid hsortable, _, hsort⟩
  · intro hnominal
    obtain ⟨type, data⟩ := column
    cases data with
    | categories layout dictionary =>
      exact ⟨layout, dictionary, rfl, categoryUsage_eq hformed⟩
    | _ =>
      have hholds := hvalid.holds
      simp_all [ColumnData.holds]

/-- However a column was reached, it is sound. -/
theorem sound_of_reachable {column : Column} (h : column.Reachable) : column.Sound :=
  sound_of_valid h.valid_and_wellBuilt.1 h.valid_and_wellBuilt.2

/-- A view of a column of rounded numbers, with a row outside what it shows. -/
theorem sound_of_view :
    ∃ derived, (Column.integer [⟨4612811918334230528⟩, .nan]).map ⟨0, .ofList [1, -1, 0]⟩ true 1 =
      .ok derived ∧ derived.size = 3 ∧ derived.Sound := by
  obtain ⟨derived, hderived⟩ : ∃ derived,
      (Column.integer [⟨4612811918334230528⟩, .nan]).map ⟨0, .ofList [1, -1, 0]⟩ true 1 =
        .ok derived := ⟨_, rfl⟩
  refine ⟨derived, hderived, ?_, sound_of_reachable (.map (.integer _) hderived)⟩
  cases hderived
  rfl

end Column

end Columnar
