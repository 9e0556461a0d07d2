import Columnar.Proofs.Column.Reaching

/-!
# Recoding sparse stores

What a mapping shows of a sparse store is encoded again from the rows whose cell is not the same as
the default (`deviatingRows`), however the source lists them: an exception that repeats the default
is dropped, and a row that shows nothing counts as missing, which may be the default itself. So the
encoding is the one that the shown cells alone decide (`Recoded`). If that pays, it is sparse, with
these rows as positions and their cells as exceptions; otherwise the rows are stored densely. Either
way each row reads a cell that is the same as the one shown.
-/

set_option autoImplicit false
set_option relaxedAutoImplicit false

namespace Columnar

namespace Layout

variable {S C : Type} [Cell C] [Store S C]

/-- The rows of a view of a sparse store that show a cell other than the default. -/
def deviatingRows (source : SparseStore S C) (mapping : Mapping) : List Nat :=
  (List.range mapping.size).filter fun row ↦
    !Cell.same ((sparse source).shown mapping row) source.default

/-- How many rows of a view of a sparse store show the default. -/
def shownDensity (source : SparseStore S C) (mapping : Mapping) : Density :=
  ⟨mapping.size, mapping.size - (deviatingRows source mapping).length⟩

/-- What a mapping shows of a sparse store, encoded from the shown cells alone. -/
structure Recoded (source : SparseStore S C) (mapping : Mapping) (derived : Layout S C) :
    Prop where
  size : derived.size = mapping.size
  /-- Where it pays, the positions are the deviating rows, and the exceptions their cells. -/
  sparse : (shownDensity source mapping).sparsePaysOff (Store.valueBytes source.exceptions)
      defaultMinSparsity →
    ∃ exceptions, derived = .sparse ⟨source.default, mapping.size,
        (deviatingRows source mapping).toArray, exceptions⟩ ∧
      Store.toList exceptions =
        (deviatingRows source mapping).map ((Layout.sparse source).shown mapping)
  /-- Elsewhere all cells are stored, with the default for those that are the same. -/
  dense : ¬(shownDensity source mapping).sparsePaysOff (Store.valueBytes source.exceptions)
      defaultMinSparsity →
    ∃ store, derived = .dense store ∧
      Store.toList store = (List.range mapping.size).map fun row ↦
        let cell := (Layout.sparse source).shown mapping row
        if Cell.same cell source.default then source.default else cell
  /-- Every row reads a cell that is the same as the one shown. -/
  same : ∀ row < mapping.size,
    Cell.same ((Layout.sparse source).shown mapping row) (derived.read row)

/-! ### Picking is deviating -/

/-- An entry is picked when what it shows is not the default. -/
theorem pick_eq {source : SparseStore S C} (hdefault : Cell.same source.default source.default)
    (entry : Int) :
    source.pick entry =
      if Cell.same (shownBy source entry) source.default then none
      else some (shownBy source entry) := by
  unfold SparseStore.pick SparseStore.shown? shownBy
  cases Mapping.target? source.size entry with
  | none => rfl
  | some row =>
    have hread : source.read row =
        ((source.exception? row).map (Store.read source.exceptions)).getD source.default := by
      unfold SparseStore.read
      cases source.exception? row <;> rfl
    simp only [hread]
    cases (source.exception? row).map (Store.read source.exceptions) with
    | none => exact (if_pos hdefault).symm
    | some cell => rfl

theorem shownDeviations_eq_map {source : SparseStore S C}
    (hdefault : Cell.same source.default source.default) (mapping : Mapping) :
    source.shownDeviations mapping =
      (deviatingRows source mapping).map fun row ↦ (row, (sparse source).shown mapping row) := by
  unfold deviatingRows
  rw [shownDeviations_eq_pickedFrom, List.range_eq_range', ← length_mapping_toList]
  apply pickedFrom_eq_map_filter
  intro row entry hentry
  rw [Nat.zero_add, pick_eq hdefault, shown_sparse source mapping hentry]
  cases Cell.same (shownBy source entry) source.default <;> rfl

/-- A recoded store lists the deviating rows. -/
theorem Recodes.toList_exceptions {derived source : SparseStore S C} {mapping : Mapping}
    (h : Recodes derived source mapping)
    (hdefault : Cell.same source.default source.default) :
    Store.toList derived.exceptions =
      (deviatingRows source mapping).map ((sparse source).shown mapping) := by
  rw [← SparseStore.map_snd_entries h.wellFormed, h.entries_eq, ← shownDeviations_eq_pickedFrom,
    shownDeviations_eq_map hdefault, List.map_map]
  rfl

/-- Expanded, it holds the shown cells, up to those that are the same as the default. -/
theorem Recodes.toList_eq_map_shown {derived source : SparseStore S C} {mapping : Mapping}
    (h : Recodes derived source mapping)
    (hdefault : Cell.same source.default source.default) :
    derived.toList = (List.range mapping.size).map fun row ↦
      let cell := (sparse source).shown mapping row
      if Cell.same cell source.default then source.default else cell := by
  rw [h.toList_eq, ← length_mapping_toList]
  refine List.ext_getElem? fun row ↦ ?_
  rw [List.getElem?_map, List.getElem?_map]
  cases hentry : mapping.toList[row]? with
  | none =>
    rw [List.getElem?_eq_none (by simpa using hentry)]
    rfl
  | some entry =>
    have hrow := (List.getElem?_eq_some_iff.mp hentry).1
    rw [List.getElem?_range hrow, Option.map_some, Option.map_some, pick_eq hdefault,
      shown_sparse source mapping hentry]
    dsimp only
    split <;> rfl

variable [LawfulStore S]

/-- Where cells are the same as themselves, agreeing with the shown cell is being the same. -/
theorem Shows.same {derived layout : Layout S C} {mapping : Mapping}
    (h : derived.Shows layout mapping) (hmissing : Cell.same (Cell.missing : C) Cell.missing)
    (hsame : ∀ cell ∈ Column.storedCells layout, Cell.same cell cell) :
    ∀ row < mapping.size, Cell.same (layout.shown mapping row) (derived.read row) := by
  intro row hrow
  rcases h.read row hrow with heq | hagrees
  · rw [← heq]
    rcases layout.shown_eq_missing_or_mem mapping row with hshown | hshown
    · rwa [hshown]
    · exact hsame _ hshown
  · exact hagrees

/-- Mapping a sparse store that takes its default, with cells that are the same as themselves,
succeeds and gives the encoding that the shown cells decide. -/
theorem exists_recoded {source : SparseStore S C} {mapping : Mapping}
    (hsize : mapping.size ≤ rowLimit) (htakes : Store.Takes source.exceptions source.default)
    (hmissing : Cell.same (Cell.missing : C) Cell.missing)
    (hsame : ∀ cell ∈ Column.storedCells (sparse source), Cell.same cell cell) :
    ∃ derived, ofSparse source mapping = .ok derived ∧ Recoded source mapping derived := by
  have hdefault := hsame source.default List.mem_cons_self
  have hkept := shownDeviations_eq_map hdefault mapping
  have hrows : (source.shownDeviations mapping).map Prod.fst = deviatingRows source mapping := by
    rw [hkept, List.map_map]
    exact List.map_id _
  have hdensity : (⟨mapping.size, mapping.size - (source.shownDeviations mapping).length⟩ :
      Density) = shownDensity source mapping := by
    rw [hkept, List.length_map]
    rfl
  obtain ⟨packed, hcollect, hrecodes⟩ := exists_recodes source hsize
  unfold ofSparse
  simp only [hcollect, bind, Except.bind, hdensity]
  rw [hrows] at hrecodes ⊢
  split
  · next hpays =>
    have hok := SparseStore.ofExceptions_eq_ok_iff.mpr ⟨rfl, hrecodes.wellFormed⟩
    rw [hok]
    exact ⟨_, rfl, rfl, fun _ ↦ ⟨packed, rfl, hrecodes.toList_exceptions hdefault⟩,
      fun hpays' ↦ absurd hpays hpays', hrecodes.shows_sparse.same hmissing hsame⟩
  · next hpays =>
    obtain ⟨rows, hcollect, hshows⟩ := hrecodes.exists_dense htakes
    have hcells := Store.toList_pack (Store.pack_of_collect hcollect)
    rw [hrecodes.toList_eq_map_shown hdefault, Store.fit_of_length_eq (by simp)] at hcells
    rw [hcollect]
    exact ⟨_, rfl, hshows.size, fun hpays' ↦ absurd hpays' hpays, fun _ ↦ ⟨rows, rfl, hcells⟩,
      hshows.same hmissing hsame⟩

end Layout

namespace ColumnData

/-- No cell of object storage is a number. -/
def NumberFree : ColumnData → Prop
  | objects layout => ∀ cell ∈ Column.storedCells layout, cell.asNumber = none
  | _ => True

/-- Only numbers among objects can differ from themselves. -/
theorem NumberFree.same_self {data : ColumnData} (h : data.NumberFree) :
    data.onLayout fun {_ C} _ _ layout ↦ Cell.same (Cell.missing : C) Cell.missing ∧
      ∀ cell ∈ Column.storedCells layout, Cell.same cell cell := by
  cases data with
  | numbers layout => exact ⟨rfl, fun cell _ ↦ by simp [Cell.same, Binary64.same]⟩
  | times layout => exact ⟨rfl, fun _ _ ↦ BEq.rfl⟩
  | instants layout => exact ⟨rfl, fun _ _ ↦ BEq.rfl⟩
  | categories layout dictionary => exact ⟨rfl, fun _ _ ↦ BEq.rfl⟩
  | objects layout =>
    refine ⟨rfl, fun cell hcell ↦ ?_⟩
    have hnumber := h cell hcell
    cases cell with
    | number value => contradiction
    | _ => simp [Cell.same, Value.equal]

/-- Mapping any sparse store, over each kind of store, gives the encoding that the shown cells
decide. It need not be one that was accepted: the rows are those that a search finds. -/
theorem map_recodes {data : ColumnData} {mapping : Shared Mapping} (hdefault : data.DefaultFits)
    (hnumbers : data.NumberFree) (hsize : mapping.value.size ≤ rowLimit) (view : Bool)
    (fresh : Token) :
    data.onLayout fun layout ↦ ∀ source, layout = .sparse source →
      ∃ derived, layout.map mapping view fresh = .ok derived ∧
        Layout.Recoded source mapping.value derived := by
  refine onLayout_imp (onLayout_and hdefault.takesDefault hnumbers.same_self) ?_
  rintro S C _ _ _ layout ⟨htakes, hmissing, hsame⟩ source rfl
  exact Layout.exists_recoded hsize htakes hmissing hsame

/-- Packed indices with an exception that repeats the default, shown in another order, twice and not
at all. -/
theorem map_recodes_repeated : ∃ exceptions source derived,
    IndexArray.ofList .uint4 [2, 5] = .ok exceptions ∧
      SparseStore.ofExceptions 2 4 [0, 3] exceptions = .ok source ∧
      Layout.deviatingRows source (.ofList [3, 0, -1, 1, 3]) = [0, 2, 4] ∧
      (Layout.sparse source).map ⟨0, .ofList [3, 0, -1, 1, 3]⟩ true 1 = .ok derived ∧
      Layout.Recoded source (.ofList [3, 0, -1, 1, 3]) derived := by
  obtain ⟨exceptions, hexceptions⟩ : ∃ exceptions,
      IndexArray.ofList .uint4 [2, 5] = .ok exceptions := ⟨_, rfl⟩
  obtain ⟨source, hsource⟩ : ∃ source,
      SparseStore.ofExceptions 2 4 [0, 3] exceptions = .ok source := by
    cases hexceptions
    exact ⟨_, rfl⟩
  have hfits : source.exceptions.format.fits source.default := by
    cases hexceptions
    cases hsource
    rfl
  have hrows : Layout.deviatingRows source (.ofList [3, 0, -1, 1, 3]) = [0, 2, 4] := by
    cases hexceptions
    cases hsource
    rfl
  have hsize : (⟨0, .ofList [3, 0, -1, 1, 3]⟩ : Shared Mapping).value.size ≤ rowLimit := by decide
  obtain ⟨derived, hmap, hrecoded⟩ := @map_recodes (.categories (.sparse source) ⟨0, .empty⟩) _
    hfits trivial hsize true 1 source rfl
  exact ⟨exceptions, source, derived, hexceptions, hsource, hrows, hmap, hrecoded⟩

end ColumnData

end Columnar
