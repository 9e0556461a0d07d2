import Columnar.Column.Derive
import Columnar.Proofs.Column.Deriving
import Columnar.Proofs.Dictionary.Renumbering
import Columnar.Proofs.Layout.Filling

/-!
# Renumbering columns

A nominal column taken through a renumbering that covers its dictionary is rebuilt in the narrowest
format of the new dictionary (`exists_withDictionary`). The rebuilt layout is of the same kind, with
the same mapping or the same positions, and every row reads the target of what it read before;
missing rows stay missing when the renumbering keeps `0`. Stored indices that no row reads, and the
default of a sparse layout, are renumbered like all others.
-/

set_option autoImplicit false
set_option relaxedAutoImplicit false

namespace Columnar

/-! ### Arrays -/

/-- A renumbered array reads the targets of what the array reads. -/
theorem IndexArray.read_of_toList_map {array result : IndexArray} {target : Nat → Nat}
    (hzero : target 0 = 0) (h : result.toList = array.toList.map target) (position : Nat) :
    Store.read result position = target (Store.read array position) := by
  rw [IndexArray.read_eq, IndexArray.read_eq, h, List.getElem?_map]
  cases array.toList[position]? with
  | none => exact hzero.symm
  | some index => rfl

theorem IndexArray.size_of_toList_map {array result : IndexArray} {target : Nat → Nat}
    (h : result.toList = array.toList.map target) : result.size = array.size := by
  simpa using congrArg List.length h

/-! ### Layouts -/

/-- A layout of the same kind whose rows read the targets of what the layout reads. -/
structure Layout.Renumbers (derived layout : Layout IndexArray Nat) (renumbering : Renumbering) :
    Prop where
  size_eq : derived.size = layout.size
  arrangement_eq : derived.arrangement = layout.arrangement
  formed : layout.Formed → derived.Formed
  stored : Column.storedCells derived = (Column.storedCells layout).map renumbering.target
  read : renumbering.target 0 = 0 → ∀ row, derived.read row = renumbering.target (layout.read row)

/-- A renumbering that covers all stored indices rebuilds the layout in a format that holds the
targets. -/
theorem Layout.exists_rebuild {layout : Layout IndexArray Nat} {renumbering : Renumbering}
    {format : IndexFormat}
    (hcovers : ∀ index ∈ Column.storedCells layout, index < renumbering.size)
    (htargets : ∀ target ∈ renumbering.toList, format.fits target) :
    ∃ derived, layout.rebuild (·.renumber renumbering.targets format)
        (Column.renumberIndex renumbering) = .ok derived ∧
      derived.prototype.format = format ∧ derived.Renumbers layout renumbering := by
  have hstore {array : IndexArray} (h : ∀ index ∈ Store.toList array, index < renumbering.size) :
      ∃ result, array.renumber renumbering.targets format = .ok result ∧
        result.format = format ∧ result.toList = array.toList.map renumbering.target :=
    IndexArray.exists_renumber (fun index hindex ↦ h index (array.toList_eq ▸ hindex)) htargets
  cases layout with
  | dense array =>
    obtain ⟨result, hresult, hformat, hlist⟩ := hstore hcovers
    refine ⟨.dense result, ?_, hformat, IndexArray.size_of_toList_map hlist, rfl, id, ?_, ?_⟩
    · unfold rebuild
      simp only [hresult, Outcome.ok_bind]
      rfl
    · show Store.toList result = (Store.toList array).map renumbering.target
      rw [IndexArray.toList_eq, IndexArray.toList_eq, hlist]
    · exact fun hzero row ↦ IndexArray.read_of_toList_map hzero hlist row
  | mapped array mapping =>
    obtain ⟨result, hresult, hformat, hlist⟩ := hstore hcovers
    refine ⟨.mapped result mapping, ?_, hformat, rfl, rfl, id, ?_, ?_⟩
    · unfold rebuild
      simp only [hresult, Outcome.ok_bind]
      rfl
    · show Store.toList result = (Store.toList array).map renumbering.target
      rw [IndexArray.toList_eq, IndexArray.toList_eq, hlist]
    · intro hzero row
      show readThrough result mapping.value row =
        renumbering.target (readThrough array mapping.value row)
      unfold readThrough
      rw [show Store.size result = Store.size array from IndexArray.size_of_toList_map hlist]
      split
      · exact IndexArray.read_of_toList_map hzero hlist _
      · exact hzero.symm
  | sparse source =>
    obtain ⟨hdefault, hexceptions⟩ := List.forall_mem_cons.mp hcovers
    obtain ⟨result, hresult, hformat, hlist⟩ := hstore hexceptions
    have hcell : Column.renumberIndex renumbering source.default =
        .ok (renumbering.target source.default) := by
      unfold Column.renumberIndex
      rw [Renumbering.get?_of_lt hdefault]
    refine ⟨.sparse ⟨renumbering.target source.default, source.size, source.positions, result⟩, ?_,
      hformat, rfl, rfl, ?_, ?_, ?_⟩
    · unfold rebuild
      simp only [hcell, hresult, Outcome.ok_bind]
      rfl
    · intro hformed
      exact ⟨hformed.increasing, hformed.below,
        (IndexArray.size_of_toList_map hlist).trans hformed.exceptions, hformed.bounded⟩
    · show renumbering.target source.default :: Store.toList result =
        (source.default :: Store.toList source.exceptions).map renumbering.target
      rw [IndexArray.toList_eq, IndexArray.toList_eq, hlist, List.map_cons]
    · intro hzero row
      show SparseStore.read ⟨renumbering.target source.default, source.size, source.positions,
        result⟩ row = renumbering.target (source.read row)
      have hplace : SparseStore.exception? ⟨renumbering.target source.default, source.size,
        source.positions, result⟩ row = source.exception? row := rfl
      unfold SparseStore.read
      rw [hplace]
      cases source.exception? row with
      | none => rfl
      | some place => exact IndexArray.read_of_toList_map hzero hlist place

/-! ### Columns -/

namespace Column

variable {type : ColumnType} {layout : Layout IndexArray Nat}
  {current dictionary : Shared Dictionary} {renumbering : Renumbering}

/-- A renumbering that covers the dictionary and stays within the other one gives a valid column,
provided that the other dictionary has a format. -/
theorem exists_withDictionary (hvalid : (ColumnData.categories layout current).Valid type)
    (hcovers : current.value.size ≤ renumbering.size)
    (htargets : renumbering.maxTarget < dictionary.value.size)
    {format : IndexFormat}
    (hformat : IndexFormat.ofDictionarySize dictionary.value.size = .ok format) :
    ∃ derived, withDictionary ⟨type, .categories layout current⟩ dictionary renumbering =
        .ok ⟨type, .categories derived dictionary⟩ ∧
      derived.Renumbers layout renumbering ∧
      (ColumnData.categories derived dictionary).Valid type := by
  have hfits : format.fits dictionary.value.maxIndex :=
    IndexFormat.fits_of_ofDictionarySize hformat
  have hbound (index : Nat) : renumbering.target index ≤ dictionary.value.maxIndex :=
    Nat.le_trans (renumbering.target_le_maxTarget index) (Nat.le_of_lt_succ htargets)
  obtain ⟨derived, hderived, hkind, hrenumbers⟩ := Layout.exists_rebuild
    (fun index hindex ↦ Nat.lt_of_le_of_lt (hvalid.stores.2 index hindex) hcovers)
    fun target htarget ↦ IndexFormat.fits_of_le hfits <|
      Nat.le_trans ((foldl_max_le_iff.mp (Nat.le_refl _)).2 target htarget)
        (Nat.le_of_lt_succ htargets)
  have hderivedValid : (ColumnData.categories derived dictionary).Valid type := by
    have hholds : (ColumnData.categories derived dictionary).holds type := by
      have hholds := hvalid.holds
      cases type <;> first | rfl | contradiction
    refine ⟨hholds, ?_, ?_⟩
    · rw [hkind]
      exact hfits
    · intro index hindex
      rw [hrenumbers.stored] at hindex
      obtain ⟨source, -, rfl⟩ := List.mem_map.mp hindex
      exact hbound source
  refine ⟨derived, ?_, hrenumbers, hderivedValid⟩
  unfold withDictionary Fault.require
  simp only [hcovers, htargets, decide_true, if_true, hformat, hderived, Outcome.ok_bind]
  exact ofData_of_valid hderivedValid

/-- Whatever a column is renumbered to is its layout renumbered. -/
theorem of_withDictionary {column derived : Column} (hvalid : column.data.Valid column.type)
    (h : column.withDictionary dictionary renumbering = .ok derived) :
    ∃ layout current rebuilt, column.data = .categories layout current ∧
      derived = ⟨column.type, .categories rebuilt dictionary⟩ ∧
      rebuilt.Renumbers layout renumbering ∧
      (ColumnData.categories rebuilt dictionary).Valid column.type := by
  obtain ⟨type, data⟩ := column
  cases data with
  | categories layout current =>
    obtain ⟨⟨⟩, hcovers, hrest⟩ := Outcome.bind_eq_ok_iff.mp h
    obtain ⟨⟨⟩, htargets, hrest⟩ := Outcome.bind_eq_ok_iff.mp hrest
    obtain ⟨format, hformat, -⟩ := Outcome.bind_eq_ok_iff.mp hrest
    obtain ⟨rebuilt, hrebuilt, hrenumbers, hderived⟩ := exists_withDictionary hvalid
      (of_decide_eq_true (Outcome.require_eq_ok_iff.mp hcovers))
      (of_decide_eq_true (Outcome.require_eq_ok_iff.mp htargets)) hformat
    refine ⟨layout, current, rebuilt, rfl, ?_, hrenumbers, hderived⟩
    exact Except.ok.inj (h.symm.trans hrebuilt)
  | _ => contradiction

end Column

end Columnar
