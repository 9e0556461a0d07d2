import Columnar.Proofs.Ingest.Columns

/-!
# The finished column and the history of its builder

A builder inspects its cells on the way and may store them densely, sparsely, or densely again, and
how much room it makes depends on a hint. None of this is left in the finished column: it depends on
the values written alone. Where it is sparse, its default is the value written most often, the first
of these in case of a tie, and its positions are the rows that hold another value (`SparseForm`).
-/

set_option autoImplicit false
set_option relaxedAutoImplicit false

namespace Columnar

/-- A default and the positions that deviate from it, for a sequence of values: the default is the
first of the most frequent values, and the positions are the rows of all other values in order. -/
structure SparseForm (shown : List Value) (default : Value) (positions : List Nat) : Prop where
  most_frequent : FirstMaximum (shown.count ·) shown default
  increasing : positions.Pairwise (· < ·)
  mem_iff : ∀ row, row ∈ positions ↔ ∃ value, shown[row]? = some value ∧ value ≠ default

namespace Layout

variable {S C : Type} [Tracked C] [Store S C] {source : SparseStore S C} {cells : List C}
  {minSparsity valueBytes : Float} {final : FinalLayout}

/-- A sparse layout of cells has the sparse form of the values that they are shown as, when these
tell the keys of the cells apart. -/
theorem Keeps.sparseForm
    (h : (Layout.sparse source).Keeps cells (chosenDefault? cells minSparsity final valueBytes))
    (hcells : cells ≠ []) (shown : C → Value)
    (hkeys : ∀ cell ∈ cells, ∀ other ∈ cells,
      shown other = shown cell ↔ Tracked.key other = Tracked.key cell)
    (hdefault : ∀ cell, Tracked.key cell = Tracked.key source.default →
      shown cell = shown source.default) :
    SparseForm (cells.map shown) (shown source.default) source.positions.toList := by
  cases h with
  | @sparse _ kept hkept hformed hsize hchosen hentries =>
    obtain ⟨default, hsome, hkey⟩ := Option.map_eq_some_iff.mp hchosen
    have hmaximum : FirstMaximum (occurrences cells) cells default := by
      rcases chosenDefault?_mem hsome with hmaximum | ⟨hnil, -⟩
      · exact hmaximum
      · contradiction
    rw [← hdefault default hkey]
    refine ⟨?_, hformed.increasing, ?_⟩
    · apply hmaximum.map
      intro cell hcell
      exact count_map_eq_count_map (hkeys cell hcell)
    · intro row
      have hlisted := congrArg (List.map Prod.fst) (map_key_deviations source.default kept)
      simp only [List.map_map] at hlisted
      rw [← hentries, hkept] at hlisted
      have hpositions : source.positions.toList =
          (pickedFrom (fun key ↦ if key = Tracked.key source.default then none else some key) 0
            (cells.map Tracked.key)).map Prod.fst := by
        rw [← SparseStore.map_fst_entries, ← hlisted]
        rfl
      rw [hpositions, mem_map_fst_pickedFrom_iff]
      simp only [List.getElem?_map, Option.map_eq_some_iff]
      constructor
      · rintro ⟨-, ⟨cell, hcell, rfl⟩, hpick⟩
        refine ⟨shown cell, ⟨cell, hcell, rfl⟩, ?_⟩
        intro hsame
        rw [hkeys default hmaximum.mem cell (List.mem_of_getElem? hcell), hkey] at hsame
        rw [if_pos hsame] at hpick
        contradiction
      · rintro ⟨-, ⟨cell, hcell, rfl⟩, hvalue⟩
        refine ⟨_, ⟨cell, hcell, rfl⟩, ?_⟩
        rw [if_neg]
        · nofun
        · rw [← hkey, ← hkeys default hmaximum.mem cell (List.mem_of_getElem? hcell)]
          exact hvalue

/-- So it has the sparse form of the values that were written, when every cell shows its own and is
known by its key. -/
theorem Keeps.sparseForm_of_shown {values : List Value} {cell : Value → C} {shown : C → Value}
    (h : (Layout.sparse source).Keeps (values.map cell)
      (chosenDefault? (values.map cell) minSparsity final valueBytes))
    (hvalues : values ≠ []) (hkey : ∀ first second : C,
      Tracked.key first = Tracked.key second → first = second)
    (hshown : ∀ value ∈ values, shown (cell value) = value) :
    SparseForm values (shown source.default) source.positions.toList := by
  have hmap : (values.map cell).map shown = values := by
    rw [List.map_map]
    exact (List.map_congr_left hshown).trans (List.map_id values)
  have hform := h.sparseForm (by simpa using hvalues) shown
    (fun first hfirst other hother ↦ by
      obtain ⟨value, hmem, rfl⟩ := List.mem_map.mp hfirst
      obtain ⟨value', hmem', rfl⟩ := List.mem_map.mp hother
      rw [hshown value hmem, hshown value' hmem']
      constructor
      · intro hsame
        rw [hsame]
      · intro hsame
        rw [← hshown value hmem, ← hshown value' hmem', hkey _ _ hsame])
    fun other hsame ↦ congrArg shown (hkey _ _ hsame)
  rwa [hmap] at hform

end Layout

namespace ColumnData

/-- The default of a sparse arrangement, as the value that it is shown as, and the positions that
deviate from it. -/
def sparse? : ColumnData → Option (Value × List Nat)
  | .numbers (.sparse source) => some (.ofNumber source.default, source.positions.toList)
  | .times (.sparse source) => some (Column.timeValue source.default, source.positions.toList)
  | .instants (.sparse source) => some (.ofInstant? source.default, source.positions.toList)
  | .categories (.sparse source) dictionary =>
    some (Column.categoryValue dictionary.value source.default, source.positions.toList)
  | .objects (.sparse source) => some (source.default, source.positions.toList)
  | _ => none

/-- Sparse data of written values has their sparse form. -/
theorem Written.sparseForm {minSparsity : Float} {final : FinalLayout} {values : List Value}
    {type : ColumnType} {data : ColumnData} (h : data.Written minSparsity final values type)
    (haccepts : ∀ value ∈ values, type.accepts value) (hvalues : values ≠ []) {default : Value}
    {positions : List Nat} (hsparse : data.sparse? = some (default, positions)) :
    SparseForm (values.map type.normalize) default positions := by
  have hnormal (hother : type ≠ .real ∧ type ≠ .integer) : values.map type.normalize = values := by
    have hsame (value : Value) (hmem : value ∈ values) : type.normalize value = value :=
      ColumnType.normalize_of_accepts hother (haccepts value hmem)
    exact (List.map_congr_left hsame).trans (List.map_id values)
  cases h with
  | @numbers type layout htype h =>
    cases layout with
    | sparse source =>
      cases hsparse
      have hshown : (values.map (ColumnBuilder.numberFor type)).map Value.ofNumber =
          values.map type.normalize := by
        rw [List.map_map]
        exact List.map_congr_left fun value hmem ↦
          ColumnType.ofNumber_numberFor htype (haccepts value hmem)
      rw [← hshown]
      exact h.sparseForm (by simpa using hvalues) Value.ofNumber
        (fun _ _ _ _ ↦ Binary64.ofNumber_eq_iff) fun _ hkey ↦ Binary64.ofNumber_eq_iff.mpr hkey
    | _ => contradiction
  | @times layout h =>
    cases layout with
    | sparse source =>
      cases hsparse
      rw [hnormal (by decide)]
      exact h.sparseForm_of_shown hvalues (fun _ _ hkey ↦ hkey) fun value hmem ↦
        ColumnType.timeValue_nanosOf (haccepts value hmem)
    | _ => contradiction
  | @instants layout h =>
    cases layout with
    | sparse source =>
      cases hsparse
      rw [hnormal (by decide)]
      exact h.sparseForm_of_shown hvalues (fun _ _ hkey ↦ hkey) fun value hmem ↦
        ColumnType.ofInstant?_instantOf (haccepts value hmem)
    | _ => contradiction
  | @categories layout indices dictionary format hinterned _ h =>
    cases layout with
    | sparse source =>
      cases hsparse
      have hcategories : indices.map (Column.categoryValue dictionary.value) = values := by
        rw [hinterned.categories]
        exact (List.map_congr_left fun value hmem ↦
          ColumnType.categoryOf_eq (haccepts value hmem)).trans (List.map_id values)
      have hindices : indices ≠ [] := by
        rw [← List.length_pos_iff, hinterned.length_eq]
        exact List.length_pos_iff.mpr hvalues
      rw [hnormal (by decide), ← hcategories]
      refine h.sparseForm hindices _ ?_ fun _ hkey ↦
        congrArg (Column.categoryValue dictionary.value) hkey
      intro index hindex other hother
      refine ⟨?_, fun hsame ↦ congrArg (Column.categoryValue dictionary.value) hsame⟩
      intro hsame
      exact Column.categoryValue_injective (hinterned.le_maxIndex other hother)
        (hinterned.le_maxIndex index hindex) hsame
    | _ => contradiction
  | objects => contradiction

end ColumnData

namespace ColumnBuilder

/-- Builders of the same values finish to columns that are stored alike, whatever their inspections
and expected rows, unless one of them halts for want of room for these; a sparse one has the sparse
form of the values. -/
theorem finish_write_alike {type : ColumnType} {first second : IngestOptions} {values : List Value}
    (final : FinalLayout) (fresh token : Token) (hsparsity : first.minSparsity = second.minSparsity)
    (hlength : values.length ≤ rowLimit) (haccepts : ∀ value ∈ values, type.accepts value) :
    (∀ options, Halts type options values → write type options values = .error .tooLarge ∧
      type.roomLimit < options.expected) ∧
    (¬Halts type first values → ¬Halts type second values →
      ∃ builder other column twin, write type first values = .ok builder ∧
        write type second values = .ok other ∧ builder.finish final fresh = .ok column ∧
        other.finish final token = .ok twin ∧ column.type = twin.type ∧
        column.data.Alike twin.data ∧
        (values ≠ [] → ∀ default positions, column.data.sparse? = some (default, positions) →
          SparseForm (values.map type.normalize) default positions)) := by
  refine ⟨fun options hhalts ↦
    ⟨hhalts.write_eq hlength haccepts, hhalts.roomLimit_lt hlength⟩, ?_⟩
  intro hfirst hsecond
  obtain ⟨builder, hbuilder, hholds⟩ := exists_write hfirst hlength haccepts
  obtain ⟨other, hother, hholds'⟩ := exists_write hsecond hlength haccepts
  obtain ⟨data, hfinish, hwritten⟩ := exists_finish hholds hlength haccepts final fresh
  obtain ⟨data', hfinish', hwritten'⟩ := exists_finish hholds' hlength haccepts final token
  rw [← hsparsity] at hwritten'
  exact ⟨builder, other, ⟨type, data⟩, ⟨type, data'⟩, hbuilder, hother, hfinish, hfinish', rfl,
    hwritten.alike hwritten', fun hvalues _ _ hsparse ↦
      hwritten.sparseForm haccepts hvalues hsparse⟩

/-- Two zeros around a missing number, inspected after the first of them, or never though more rows
are expected than any storage has room for. -/
theorem finish_write_alike_zeros :
    ∃ builder other column twin,
      write .real { checkRows := 1 } [.number ⟨0⟩, .missing, .number ⟨0⟩] = .ok builder ∧
      write .real { checkRows := 9, expectedRows := some 4611686018427387904 }
        [.number ⟨0⟩, .missing, .number ⟨0⟩] = .ok other ∧
      builder.finish .auto 1 = .ok column ∧ other.finish .auto 2 = .ok twin ∧
      column.data.Alike twin.data := by
  obtain ⟨hlimit, halike⟩ := @finish_write_alike .real { checkRows := 1 }
    { checkRows := 9, expectedRows := some 4611686018427387904 }
    [.number ⟨0⟩, .missing, .number ⟨0⟩] .auto 1 2 rfl (by decide) (by decide)
  obtain ⟨builder, other, column, twin, hbuilder, hother, hcolumn, htwin, -, halike, -⟩ :=
    halike (fun hhalts ↦ absurd (hlimit _ hhalts).2 (by decide))
      (not_halts_of_lt_check (by decide) (by decide) (by decide))
  exact ⟨builder, other, column, twin, hbuilder, hother, hcolumn, htwin, halike⟩

/-- Of two builders with the same value, the one that expects too many rows fails. -/
theorem not_exists_write_beyond_room :
    ¬∃ builder other, write .real { checkRows := 2, minSparsity := 2 } [.missing] = .ok builder ∧
      write .real .beyondRoom [.missing] = .ok other := by
  rintro ⟨builder, other, -, hwrite⟩
  obtain ⟨start, next, hstart, hpush⟩ :=
    @push_real_of_no_room .beyondRoom .missing rfl rfl rfl (by decide)
  unfold write at hwrite
  rw [hstart, Outcome.ok_bind, Attempt.runAll_cons, hpush] at hwrite
  contradiction

end ColumnBuilder

end Columnar
