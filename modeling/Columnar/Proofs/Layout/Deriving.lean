import Columnar.Column.Basic
import Columnar.Proofs.Mapping.Composition
import Columnar.Proofs.Sparse.Reading

/-!
# Deriving layouts

What a mapping shows of a layout does not depend on how either side is laid out: gathering, keeping
a view, composing with the view that is there and encoding a sparse layout again all lead to a
layout whose rows read what the mapping shows (`exists_map`). Sparse storage may replace a cell by
the default that counts as the same, so the cells agree rather than being equal. The derived layout
stores no cell that its source does not store, but for missing ones, and its stores take the same
cells, which is what lets one derivation follow another.
-/

set_option autoImplicit false
set_option relaxedAutoImplicit false

namespace Columnar

variable {S C : Type} [Cell C] [Store S C]

/-- The cells are equal, or the same as far as storage can tell. -/
def Cell.Agrees (first second : C) : Prop := first = second ∨ Cell.same first second

namespace Layout

/-- The cell that a mapping shows of a layout. -/
def shown (layout : Layout S C) (mapping : Mapping) (row : Nat) : C :=
  match mapping.resolve? row layout.size with
  | some (some source) => layout.read source
  | _ => Cell.missing

/-- The default of a sparse layout can be stored among its exceptions. -/
def TakesDefault : Layout S C → Prop
  | sparse source => Store.Takes source.exceptions source.default
  | _ => True

/-- A layout that shows another one through a mapping. -/
structure Shows (derived layout : Layout S C) (mapping : Mapping) : Prop where
  size : derived.size = mapping.size
  read : ∀ row < mapping.size, Cell.Agrees (layout.shown mapping row) (derived.read row)
  takes : ∀ cell, Store.Takes derived.prototype cell ↔ Store.Takes layout.prototype cell
  stored : ∀ cell ∈ Column.storedCells derived,
    cell = Cell.missing ∨ cell ∈ Column.storedCells layout

/-- A layout that stores nothing but cells of another one and missing, over a store that takes the
same cells. -/
structure StoresFrom (derived layout : Layout S C) : Prop where
  takes : ∀ cell, Store.Takes derived.prototype cell ↔ Store.Takes layout.prototype cell
  stored : ∀ cell ∈ Column.storedCells derived,
    cell = Cell.missing ∨ cell ∈ Column.storedCells layout

theorem Shows.storesFrom {derived layout : Layout S C} {mapping : Mapping}
    (h : derived.Shows layout mapping) : derived.StoresFrom layout := ⟨h.takes, h.stored⟩

/-! ### Dense layouts and views -/

/-- Looking through a composition is looking at the view through the later mapping. -/
theorem readThrough_compose (store : S) (base next : Mapping) (row : Nat) :
    readThrough store (base.compose next) row =
      match next.resolve? row base.size with
      | some (some source) => readThrough store base source
      | _ => Cell.missing := by
  unfold readThrough
  rw [Mapping.resolve?_compose]
  cases next.resolve? row base.size with
  | none => rfl
  | some shown =>
    cases shown with
    | none => rfl
    | some source =>
      simp only [Option.map_some, Option.bind_some]
      cases base.resolve? source (Store.size store) with
      | none => rfl
      | some position => rfl

variable [LawfulStore S]

/-- Keeping a view and gathering it read alike. -/
theorem shows_viewOrGather {layout : Layout S C} {store : S} {mapping : Mapping}
    (through : Shared Mapping) (view : Bool) (hsize : through.value.size = mapping.size)
    (hread : ∀ row, readThrough store through.value row = layout.shown mapping row)
    (htakes : layout.prototype = store) (hstored : Column.storedCells layout = Store.toList store) :
    (viewOrGather store through view).Shows layout mapping := by
  cases view with
  | true =>
    refine ⟨hsize, fun row _ ↦ .inl (hread row).symm, ?_, ?_⟩
    · intro cell
      rw [htakes]
      rfl
    · intro cell hcell
      rw [hstored]
      exact .inr hcell
  | false =>
    refine ⟨(LawfulStore.size_gather store _).trans hsize, fun row _ ↦ .inl ?_, ?_,
      ?_⟩
    · exact ((LawfulStore.read_gather store _ row).trans (hread row)).symm
    · intro cell
      rw [htakes]
      exact LawfulStore.takes_gather store _ cell
    · intro cell hcell
      rw [hstored]
      exact Store.mem_toList_gather hcell

/-! ### Sparse layouts -/

/-- What an entry shows of a sparse store. -/
def shownBy (sparse : SparseStore S C) (entry : Int) : C :=
  match Mapping.target? sparse.size entry with
  | some source => sparse.read source
  | none => Cell.missing

omit [LawfulStore S] in
/-- What is not picked is the default, or the same as the default. -/
theorem agrees_getD_pick (source : SparseStore S C) (entry : Int) :
    Cell.Agrees (shownBy source entry) ((source.pick entry).getD source.default) := by
  have hdecide (cell : C) : Cell.Agrees cell
      ((if Cell.same cell source.default then none else some cell).getD source.default) := by
    by_cases hsame : Cell.same cell source.default
    · rw [if_pos hsame]
      exact .inr hsame
    · rw [if_neg hsame]
      exact .inl rfl
  unfold SparseStore.pick SparseStore.shown? shownBy
  cases Mapping.target? source.size entry with
  | none => exact hdecide Cell.missing
  | some row =>
    simp only [SparseStore.read]
    cases source.exception? row with
    | none => exact .inl rfl
    | some place => exact hdecide (Store.read source.exceptions place)

omit [LawfulStore S] in
/-- A picked cell is missing or one of the exceptions. -/
theorem of_pick {source : SparseStore S C} {entry : Int} {cell : C}
    (h : source.pick entry = some cell) :
    cell = Cell.missing ∨ ∃ place, cell = Store.read source.exceptions place := by
  unfold SparseStore.pick SparseStore.shown? at h
  cases htarget : Mapping.target? source.size entry with
  | none =>
    rw [htarget] at h
    simp only [Option.ite_none_left_eq_some, Option.some.injEq] at h
    exact .inl h.2.symm
  | some row =>
    rw [htarget] at h
    cases hplace : source.exception? row with
    | none => simp [hplace] at h
    | some place =>
      simp only [hplace, Option.map_some, Option.ite_none_left_eq_some, Option.some.injEq] at h
      exact .inr ⟨place, h.2.symm⟩

omit [LawfulStore S] in
theorem shown_sparse (source : SparseStore S C) (mapping : Mapping) {row : Nat} {entry : Int}
    (h : mapping.toList[row]? = some entry) :
    (sparse source).shown mapping row = shownBy source entry := by
  have hentry : mapping.entries[row]? = some entry := by
    rwa [Mapping.toList, Array.getElem?_toList] at h
  unfold shown shownBy
  rw [Mapping.resolve?, hentry]
  simp only [Option.map_some, Layout.size]
  cases Mapping.target? source.size entry <;> rfl

/-- What is picked can be stored again, and comes from the exceptions or is missing. -/
theorem takes_of_pick {source : SparseStore S C} {entry : Int} {cell : C}
    (h : source.pick entry = some cell) :
    Store.Takes source.exceptions cell ∧
      (cell = Cell.missing ∨ cell ∈ Store.toList source.exceptions) := by
  rcases of_pick h with rfl | ⟨place, rfl⟩
  · exact ⟨LawfulStore.takes_missing _, .inl rfl⟩
  · exact ⟨LawfulStore.takes_read _ _, Store.read_eq_missing_or_mem _ _⟩

/-- A sparse store over the default of its source that lists the rows of a view deviating from
it. -/
structure Recodes (derived source : SparseStore S C) (mapping : Mapping) : Prop where
  default_eq : derived.default = source.default
  size_eq : derived.size = mapping.size
  wellFormed : derived.WellFormed
  entries_eq : derived.entries = pickedFrom source.pick 0 mapping.toList
  takes : ∀ cell, Store.Takes derived.exceptions cell ↔ Store.Takes source.exceptions cell
  stored : ∀ cell ∈ Store.toList derived.exceptions,
    cell = Cell.missing ∨ cell ∈ Store.toList source.exceptions

theorem length_mapping_toList (mapping : Mapping) : mapping.toList.length = mapping.size := by
  simp [Mapping.toList, Mapping.size]

theorem exists_recodes (source : SparseStore S C) {mapping : Mapping}
    (hsize : mapping.size ≤ rowLimit) :
    ∃ packed, Store.collect source.exceptions (source.shownDeviations mapping).length
        ((source.shownDeviations mapping).map Prod.snd) = .ok packed ∧
      Recodes ⟨source.default, mapping.size,
        ((source.shownDeviations mapping).map Prod.fst).toArray, packed⟩ source mapping := by
  have hbound : mapping.toList.length ≤ 4294967295 := by
    rw [length_mapping_toList]
    exact Nat.le_trans hsize (by decide)
  have hkept := shownDeviations_eq_pickedFrom source mapping
  have htaken : ∀ entry ∈ source.shownDeviations mapping, Store.Takes source.exceptions entry.2 ∧
      (entry.2 = Cell.missing ∨ entry.2 ∈ Store.toList source.exceptions) := by
    intro entry hentry
    rw [hkept] at hentry
    obtain ⟨-, -, item, -, hpick⟩ := of_mem_pickedFrom hentry
    exact takes_of_pick hpick
  obtain ⟨packed, hcollect, hpack, hformed, hentries⟩ := SparseStore.exists_ofPicked
    source.exceptions source.default hkept hbound fun entry hentry ↦ (htaken entry hentry).1
  rw [length_mapping_toList] at hformed hentries
  refine ⟨packed, hcollect, rfl, rfl, hformed, hentries.trans hkept, LawfulStore.takes_pack hpack,
    ?_⟩
  intro cell hcell
  rw [Store.toList_pack hpack, Store.fit_of_length_eq (List.length_map _)] at hcell
  obtain ⟨entry, hentry, rfl⟩ := List.mem_map.mp hcell
  exact (htaken entry hentry).2

/-- Every row of a view over sparse storage has its entry. -/
theorem exists_entry {mapping : Mapping} {row : Nat} (hrow : row < mapping.size) :
    ∃ entry, mapping.toList[row]? = some entry :=
  ⟨_, List.getElem?_eq_getElem ((length_mapping_toList mapping).symm ▸ hrow)⟩

omit [LawfulStore S] in
/-- Sparse storage that still pays reads what the mapping shows. -/
theorem Recodes.shows_sparse {derived source : SparseStore S C} {mapping : Mapping}
    (h : Recodes derived source mapping) :
    (sparse derived).Shows (sparse source) mapping := by
  refine ⟨h.size_eq, ?_, h.takes, ?_⟩
  · intro row hrow
    obtain ⟨entry, hentry⟩ := exists_entry hrow
    have hlookup := @lookup_pickedFrom _ _ source.pick mapping.toList 0 row
    rw [Nat.zero_add, hentry, Option.bind_some] at hlookup
    rw [shown_sparse source mapping hentry]
    show Cell.Agrees _ (derived.read row)
    rw [SparseStore.read_eq_lookup h.wellFormed.increasing, h.entries_eq, hlookup, h.default_eq]
    exact agrees_getD_pick source entry
  · intro cell hcell
    change cell ∈ derived.default :: Store.toList derived.exceptions at hcell
    rw [h.default_eq] at hcell
    rcases List.mem_cons.mp hcell with rfl | hcell
    · exact .inr List.mem_cons_self
    · exact (h.stored cell hcell).imp_right (List.mem_cons_of_mem _)

omit [LawfulStore S] in
theorem Recodes.toList_eq {derived source : SparseStore S C} {mapping : Mapping}
    (h : Recodes derived source mapping) :
    derived.toList = mapping.toList.map fun entry ↦ (source.pick entry).getD source.default := by
  rw [← spread_pickedFrom, length_mapping_toList, ← h.entries_eq, ← h.size_eq, ← h.default_eq]
  rfl

/-- Sparse storage that no longer pays is collected densely, and reads the same. -/
theorem Recodes.exists_dense {derived source : SparseStore S C} {mapping : Mapping}
    (h : Recodes derived source mapping)
    (hdefault : Store.Takes source.exceptions source.default) :
    ∃ packed, Store.collect source.exceptions mapping.size derived.toList = .ok packed ∧
      (dense packed).Shows (sparse source) mapping := by
  have hbound : mapping.size ≤ 4294967295 := h.size_eq ▸ h.wellFormed.bounded
  have hrows : ∀ cell ∈ derived.toList, Store.Takes source.exceptions cell ∧
      (cell = Cell.missing ∨ cell ∈ source.default :: Store.toList source.exceptions) := by
    intro cell hcell
    rw [h.toList_eq] at hcell
    obtain ⟨entry, -, rfl⟩ := List.mem_map.mp hcell
    cases hpick : source.pick entry with
    | none => exact ⟨hdefault, .inr List.mem_cons_self⟩
    | some picked =>
      obtain ⟨htaken, hfrom⟩ := takes_of_pick hpick
      exact ⟨htaken, hfrom.imp_right (List.mem_cons_of_mem _)⟩
  obtain ⟨packed, hcollect, hpack⟩ := Store.exists_collect source.exceptions hbound
    fun cell hcell ↦ (hrows cell hcell).1
  refine ⟨packed, hcollect, LawfulStore.size_pack hpack, ?_,
    LawfulStore.takes_pack hpack, ?_⟩
  · intro row hrow
    obtain ⟨entry, hentry⟩ := exists_entry hrow
    have hlength : derived.toList.length = mapping.size := by
      rw [h.toList_eq, List.length_map, length_mapping_toList]
    rw [shown_sparse source mapping hentry]
    show Cell.Agrees _ (Store.read packed row)
    rw [LawfulStore.read_pack hpack, Store.fit_of_length_eq hlength, h.toList_eq,
      List.getElem?_map, hentry]
    exact agrees_getD_pick source entry
  · intro cell hcell
    change cell ∈ Store.toList packed at hcell
    rw [Store.toList_pack hpack] at hcell
    rcases Store.mem_fit hcell with hmissing | hmem
    · exact .inl hmissing
    · exact (hrows cell hmem).2

/-- The layout of what a mapping shows of a sparse store, whichever of the two it is. -/
theorem exists_ofSparse (source : SparseStore S C) {mapping : Mapping}
    (hsize : mapping.size ≤ rowLimit) (hdefault : Store.Takes source.exceptions source.default) :
    ∃ derived, ofSparse source mapping = .ok derived ∧ derived.Shows (sparse source) mapping := by
  obtain ⟨packed, hcollect, hrecodes⟩ := exists_recodes source hsize
  unfold ofSparse
  simp only [hcollect, bind, Except.bind]
  split
  · have hok := SparseStore.ofExceptions_eq_ok_iff.mpr ⟨rfl, hrecodes.wellFormed⟩
    rw [hok]
    exact ⟨_, rfl, hrecodes.shows_sparse⟩
  · obtain ⟨rows, hcollect, hshows⟩ := hrecodes.exists_dense hdefault
    rw [hcollect]
    exact ⟨_, rfl, hshows⟩

/-! ### All layouts -/

/-- Deriving through a mapping succeeds, and the result shows what the mapping shows. -/
theorem exists_map {layout : Layout S C} {mapping : Shared Mapping} (view : Bool) (fresh : Token)
    (hsize : mapping.value.size ≤ rowLimit) (hdefault : layout.TakesDefault) :
    ∃ derived, layout.map mapping view fresh = .ok derived ∧
      derived.Shows layout mapping.value := by
  cases layout with
  | dense store =>
    exact ⟨_, rfl, shows_viewOrGather mapping view rfl (fun _ ↦ rfl) rfl rfl⟩
  | mapped store current =>
    refine ⟨_, rfl, shows_viewOrGather ⟨fresh, current.value.compose mapping.value⟩ view
      (Mapping.size_compose _ _) ?_ rfl rfl⟩
    intro row
    exact readThrough_compose store current.value mapping.value row
  | sparse source => exact exists_ofSparse source hsize hdefault

end Layout

end Columnar
