import Columnar.Proofs.Column.Filling
import Columnar.Proofs.Column.Ordering
import Mathlib.Data.List.Permutation

/-!
# Missing rows

A row can be read as a value, as a number, or as an index, and it can be sorted. All of these agree
on whether the row is missing, whatever the type and the layout, with one exception: the
constructors of sparse layouts do not look at the times that they are given, so a sparse layout may
hold a number of nanoseconds that is neither within a day nor the missing marker. Such a stray row
has no value, but it is read as a number and sorted by it. Nowhere else do the reads disagree
(`Reachable.agrees_iff`).
-/

set_option autoImplicit false
set_option relaxedAutoImplicit false

namespace Columnar

/-! ### Missing cells -/

namespace ColumnData

/-- The row holds the missing cell. -/
def missingAt (data : ColumnData) (row : Nat) : Bool :=
  match data with
  | numbers layout => (layout.read row).isNaN
  | times layout => layout.read row == TimeOfDay.missingNanos
  | instants layout => (layout.read row).isNone
  | categories layout _ => layout.read row == 0
  | objects layout => (layout.read row).isMissing

/-- The row holds neither a time nor the missing marker. -/
def Strays (data : ColumnData) (row : Nat) : Prop :=
  match data with
  | times layout => layout.read row ≠ TimeOfDay.missingNanos ∧
      TimeOfDay.ofNanos? (layout.read row) = none
  | _ => False


variable {data : ColumnData} {type : ColumnType} {row other : Nat}

theorem isNaN_numberAt (hvalid : data.Valid type) (hreadable : type.supports .numericReadable) :
    (data.numberAt row).isNaN = data.missingAt row := by
  cases data with
  | numbers layout => rfl
  | times layout =>
    unfold numberAt missingAt Column.timeNumber
    by_cases hmissing : layout.read row = TimeOfDay.missingNanos
    · simp [hmissing, show Binary64.nan.isNaN = true from by decide]
    · simp [hmissing, Binary64.isNaN_ofInt]
  | categories layout dictionary =>
    unfold numberAt missingAt Column.categoryNumber
    by_cases hmissing : layout.read row = 0
    · simp [hmissing, show Binary64.nan.isNaN = true from by decide]
    · simp [hmissing, Binary64.isNaN_ofInt]
  | _ =>
    have hholds := hvalid.holds
    cases type <;> contradiction

/-- A row has no value when it holds the missing cell or strays. -/
theorem valueAt_eq_missing_iff (hvalid : data.Valid type) :
    data.valueAt row = .missing ↔ data.missingAt row ∨ data.Strays row := by
  cases data with
  | numbers layout =>
    simp only [valueAt, missingAt, Strays, Value.ofNumber]
    split <;> simp_all
  | times layout =>
    have hmarker : TimeOfDay.ofNanos? TimeOfDay.missingNanos = none := by decide
    simp only [valueAt, missingAt, Strays, Column.timeValue, beq_iff_eq]
    by_cases hmissing : layout.read row = TimeOfDay.missingNanos
    · simp [hmissing, hmarker]
    · cases htime : TimeOfDay.ofNanos? (layout.read row) with
      | none => simp [hmissing]
      | some time => simp [hmissing]
  | instants layout =>
    simp only [valueAt, missingAt, Strays]
    cases layout.read row <;> simp [Value.ofInstant?]
  | categories layout dictionary =>
    simp only [valueAt, missingAt, Strays, Column.categoryValue, beq_iff_eq, or_false]
    have hlt := Column.read_lt_size hvalid row
    cases hindex : layout.read row with
    | zero => simp [Dictionary.get?]
    | succ position =>
      rw [hindex] at hlt
      have htext : dictionary.value.get? (position + 1) = some _ :=
        Array.getElem?_eq_getElem (Nat.lt_of_succ_lt_succ hlt)
      simp [htext]
  | objects layout =>
    simp only [valueAt, missingAt, Strays]
    cases layout.read row <;> simp [Value.isMissing]

/-- Only times stray. -/
theorem Strays.type_eq (h : data.Strays row) (hvalid : data.Valid type) : type = .time := by
  have hholds := hvalid.holds
  cases data with
  | times layout => cases type <;> first | rfl | contradiction
  | _ => contradiction

/-- A row that strays does not hold the missing cell. -/
theorem Strays.missingAt_eq (h : data.Strays row) : data.missingAt row = false := by
  cases data with
  | times layout => exact beq_eq_false_iff_ne.mpr h.1
  | _ => contradiction

/-- A missing cell is greater than any other. -/
theorem compareRows_of_missing (hrow : data.missingAt row) (hother : data.missingAt other = false) :
    data.compareRows row other = .gt := by
  unfold missingAt at hrow hother
  cases data <;> simp_all only [compareRows, compareMissingLast]

end ColumnData

/-! ### Filling -/

namespace Column

variable {column : Column} {start offset step row : Nat}

theorem get_eq_missing_iff (hrow : row < column.size) :
    column.get row = .ok .missing ↔ column.data.valueAt row = .missing := by
  rw [get_of_lt hrow]
  exact ⟨Except.ok.inj, congrArg Except.ok⟩

/-- A row is missing when it holds the missing cell or strays. -/
theorem get_eq_missing_iff_missingAt (hvalid : column.data.Valid column.type)
    (hrow : row < column.size) :
    column.get row = .ok .missing ↔ column.data.missingAt row ∨ column.data.Strays row :=
  (get_eq_missing_iff hrow).trans (ColumnData.valueAt_eq_missing_iff hvalid)

section Fills

variable (hvalid : column.data.Valid column.type)
  (hformed : column.data.onLayout fun layout ↦ layout.Formed) (hstep : 0 < step)
  (hstart : start ≤ row) (hrow : row < column.size)

include hvalid hformed hstep hstart hrow

theorem exists_fillNumbers {buffer : Array Binary64}
    (hreadable : column.type.supports .numericReadable)
    (hroom : offset + (row - start) * step < buffer.size) :
    ∃ count filled, column.fillNumbers buffer start offset step = .ok (count, filled) ∧
      filled[offset + (row - start) * step]? = some (column.data.numberAt row) :=
  (fillNumbers_law hvalid hformed buffer start offset step).exists_written hreadable hstep hstart
    hrow hroom

theorem exists_fillValues {buffer : Array Value} (hreadable : column.type.supports .objectReadable)
    (hroom : offset + (row - start) * step < buffer.size) :
    ∃ count filled, column.fillValues buffer start offset step = .ok (count, filled) ∧
      filled[offset + (row - start) * step]? = some (column.data.valueAt row) :=
  (fillValues_law hvalid hformed buffer start offset step).exists_written hreadable hstep hstart
    hrow hroom

end Fills

/-- The index that a row of a nominal column reads is `0` exactly when the row is missing. -/
theorem exists_fillIndices {buffer : Array Nat} (hvalid : column.data.Valid column.type)
    (hformed : column.data.onLayout fun layout ↦ layout.Formed) (hnominal : column.type = .nominal)
    (hstart : start ≤ row) (hrow : row < column.size) (hroom : row - start < buffer.size) :
    ∃ count filled index, column.fillIndices buffer start = .ok (count, filled) ∧
      filled[row - start]? = some index ∧ (index = 0 ↔ column.data.missingAt row) := by
  have hplace : 0 + (row - start) * 1 = row - start := by omega
  have hlaw := fillIndices_law hvalid hformed buffer start
  obtain ⟨count, filled, hfill, hindex⟩ :=
    hlaw.exists_written hnominal Nat.one_pos hstart hrow (hplace.symm ▸ hroom)
  rw [hplace] at hindex
  refine ⟨count, filled, _, hfill, hindex, ?_⟩
  have hholds := hvalid.holds
  obtain ⟨type, data⟩ := column
  cases data with
  | categories layout dictionary => exact beq_iff_eq.symm
  | _ => simp_all [ColumnData.holds]

/-! ### Sorting -/

/-- In an order that keeps a relation, the relation holds between rows as they stand. -/
theorem relation_of_idxOf_lt {relation : Nat → Nat → Prop} {rows : List Nat} {first second : Nat}
    (h : rows.Pairwise relation) (hsecond : second ∈ rows)
    (hlt : rows.idxOf first < rows.idxOf second) : relation first second := by
  have hplace := List.idxOf_lt_length_iff.mpr hsecond
  have hrelation := List.pairwise_iff_getElem.mp h _ _ (Nat.lt_trans hlt hplace) hplace hlt
  rwa [List.getElem_idxOf, List.getElem_idxOf] at hrelation

/-- In this list of rows, the row stands with the missing ones: after every row that has a value, or
before every such row in descending order. -/
def StandsWithMissing (column : Column) (order : SortOrder) (rows : List Nat) (row : Nat) : Prop :=
  ∀ other < column.size, column.get other ≠ .ok .missing →
    match order with
    | .ascending => rows.idxOf other < rows.idxOf row
    | .descending => rows.idxOf row < rows.idxOf other

/-- A row with a value does not stand after itself. -/
theorem get_eq_missing_of_standsWithMissing {order : SortOrder} {rows : List Nat}
    (hrow : row < column.size) (h : column.StandsWithMissing order rows row) :
    column.get row = .ok .missing := by
  apply Classical.byContradiction
  intro hvalue
  have hself := h row hrow hvalue
  cases order <;> exact Nat.lt_irrefl _ hself

/-- Sorting puts the missing cells last. -/
theorem standsWithMissing_of_missingAt {order : SortOrder} {rows : List Nat}
    (hvalid : column.data.Valid column.type) (hperm : rows.Perm (List.range column.size))
    (hsorted : rows.Pairwise (order.Precedes column.data.compareRows))
    (hrow : row < column.size) (hmissing : column.data.missingAt row) :
    column.StandsWithMissing order rows row := by
  intro other hother hvalue
  have hmem {row : Nat} (hrow : row < column.size) : row ∈ rows :=
    hperm.mem_iff.mpr (List.mem_range.mpr hrow)
  have hpresent : column.data.missingAt other = false :=
    Bool.eq_false_iff.mpr fun h ↦
      hvalue ((get_eq_missing_iff_missingAt hvalid hother).mpr (.inl h))
  have hgreater := ColumnData.compareRows_of_missing hmissing hpresent
  have hne : rows.idxOf row ≠ rows.idxOf other := by
    intro heq
    rw [(List.idxOf_inj (hmem hrow)).mp heq, hpresent] at hmissing
    contradiction
  cases order with
  | ascending =>
    refine Nat.lt_of_le_of_ne (Nat.le_of_not_lt fun hlt ↦ ?_) hne.symm
    have hallowed := (relation_of_idxOf_lt hsorted (hmem hother) hlt).1
    simp [SortOrder.allows, hgreater] at hallowed
  | descending =>
    refine Nat.lt_of_le_of_ne (Nat.le_of_not_lt fun hlt ↦ ?_) hne
    have hallowed := (relation_of_idxOf_lt hsorted (hmem hrow) hlt).1
    simp [SortOrder.allows, hgreater] at hallowed

/-! ### Agreement -/

/-- All ways of reading the row tell alike whether it is missing. -/
structure Agrees (column : Column) (row : Nat) : Prop where
  fillNumbers : column.type.supports .numericReadable →
    ∀ (buffer : Array Binary64) (start offset step : Nat), 0 < step → start ≤ row →
      offset + (row - start) * step < buffer.size → ∃ count filled number,
        column.fillNumbers buffer start offset step = .ok (count, filled) ∧
        filled[offset + (row - start) * step]? = some number ∧
        (column.get row = .ok .missing ↔ number.isNaN)
  fillValues : column.type.supports .objectReadable →
    ∀ (buffer : Array Value) (start offset step : Nat), 0 < step → start ≤ row →
      offset + (row - start) * step < buffer.size → ∃ count filled value,
        column.fillValues buffer start offset step = .ok (count, filled) ∧
        filled[offset + (row - start) * step]? = some value ∧
        (column.get row = .ok .missing ↔ value = .missing)
  fillIndices : column.type = .nominal →
    ∀ (buffer : Array Nat) (start : Nat), start ≤ row → row - start < buffer.size →
      ∃ count filled index, column.fillIndices buffer start = .ok (count, filled) ∧
        filled[row - start]? = some index ∧ (column.get row = .ok .missing ↔ index = 0)
  sort : column.type.supports .sortable → column.size ≤ rowLimit → ∀ order,
    ∃ rows : List Nat, column.sort order = .ok (.ofList (rows.map fun row : Nat ↦ (row : Int))) ∧
      rows.Perm (List.range column.size) ∧
      (column.get row = .ok .missing ↔ column.StandsWithMissing order rows row)

/-- A row whose reads agree is missing only when it holds the missing cell, as the number that is
read tells. -/
theorem Agrees.missingAt_eq (hagrees : column.Agrees row) (hvalid : column.data.Valid column.type)
    (hformed : column.data.onLayout fun layout ↦ layout.Formed) (hrow : row < column.size)
    (hreadable : column.type.supports .numericReadable) (hget : column.get row = .ok .missing) :
    column.data.missingAt row = true := by
  have hroom : 0 + (row - row) * 1 < #[Binary64.zero].size := by simp
  obtain ⟨count, filled, number, hfill, hnumber, hagree⟩ := hagrees.fillNumbers hreadable
    #[.zero] row 0 1 Nat.one_pos (Nat.le_refl row) hroom
  obtain ⟨_, _, hsame, hplace⟩ :=
    exists_fillNumbers hvalid hformed Nat.one_pos (Nat.le_refl row) hrow hreadable hroom
  rw [hfill] at hsame
  cases hsame
  rw [hnumber] at hplace
  cases hplace
  rw [← ColumnData.isNaN_numberAt hvalid hreadable]
  exact hagree.mp hget

/-- The reads of a row agree exactly when it does not stray. -/
theorem Reachable.agrees_iff (h : column.Reachable) (hrow : row < column.size) :
    column.Agrees row ↔ ¬column.data.Strays row := by
  have hvalid := h.valid
  have hformed := h.formed
  have hmissing := get_eq_missing_iff_missingAt hvalid hrow
  constructor
  · intro hagrees hstrays
    have hreadable : column.type.supports .numericReadable := by
      rw [hstrays.type_eq hvalid]
      decide
    have hcell := hagrees.missingAt_eq hvalid hformed hrow hreadable (hmissing.mpr (.inr hstrays))
    rw [hstrays.missingAt_eq] at hcell
    contradiction
  · intro hstrays
    have hget : column.get row = .ok .missing ↔ column.data.missingAt row :=
      hmissing.trans (or_iff_left hstrays)
    constructor
    · intro hreadable buffer start offset step hstep hstart hroom
      obtain ⟨count, filled, hfill, hnumber⟩ :=
        exists_fillNumbers hvalid hformed hstep hstart hrow hreadable hroom
      refine ⟨count, filled, _, hfill, hnumber, ?_⟩
      rw [hget, ColumnData.isNaN_numberAt hvalid hreadable]
    · intro hreadable buffer start offset step hstep hstart hroom
      obtain ⟨count, filled, hfill, hvalue⟩ :=
        exists_fillValues hvalid hformed hstep hstart hrow hreadable hroom
      exact ⟨count, filled, _, hfill, hvalue, get_eq_missing_iff hrow⟩
    · intro hnominal buffer start hstart hroom
      obtain ⟨count, filled, index, hfill, hindex, hzero⟩ :=
        exists_fillIndices hvalid hformed hnominal hstart hrow hroom
      exact ⟨count, filled, index, hfill, hindex, hget.trans hzero.symm⟩
    · intro hsortable hsize order
      obtain ⟨rows, hsort, hperm, hsorted⟩ := exists_sort order hvalid hformed hsortable hsize
      refine ⟨rows, hsort, hperm, fun hmissing ↦ ?_, get_eq_missing_of_standsWithMissing hrow⟩
      exact standsWithMissing_of_missingAt hvalid hperm hsorted hrow (hget.mp hmissing)

/-- A sparse column of times whose default strays: the row with the exception is read alike, the
other one is not. -/
theorem Reachable.agrees_iff_of_default : ∃ source column,
    SparseStore.ofExceptions (-5 : Int) 2 [1] (TimeStore.mk #[7]) = .ok source ∧
      Column.ofData .time (.times (.sparse source)) = .ok column ∧ column.Reachable ∧
      1 < column.size ∧ column.Agrees 1 ∧ ¬column.Agrees 0 := by
  obtain ⟨source, hsource⟩ : ∃ source,
      SparseStore.ofExceptions (-5 : Int) 2 [1] (TimeStore.mk #[7]) = .ok source := ⟨_, rfl⟩
  obtain ⟨column, hcolumn⟩ : ∃ column,
      Column.ofData .time (.times (.sparse source)) = .ok column := ⟨_, rfl⟩
  have haccepted : (ColumnData.times (.sparse source)).Accepted := ⟨.ofExceptions hsource, trivial⟩
  have hreachable : column.Reachable := .ofData haccepted hcolumn
  refine ⟨source, column, hsource, hcolumn, hreachable, ?_⟩
  cases hsource
  cases hcolumn
  refine ⟨by decide, (Reachable.agrees_iff hreachable (by decide)).mpr ?_,
    fun hagrees ↦ (Reachable.agrees_iff hreachable (by decide)).mp hagrees ?_⟩
  · exact fun hstrays ↦ absurd hstrays.2 (by decide)
  · exact ⟨by decide, by decide⟩

/-- Such a column is made, its first row has no value, and yet it is read as a number and sorted
before a time. -/
theorem exists_stray_read_as_number : ∃ source column,
    SparseStore.ofExceptions (-5 : Int) 2 [1] (TimeStore.mk #[7]) = .ok source ∧
      ofData .time (.times (.sparse source)) = .ok column ∧
      column.get 0 = .ok .missing ∧ column.get 1 = .ok (.time ⟨7, by decide⟩) ∧
      column.fillNumbers #[.zero] 0 0 1 = .ok (1, #[.ofInt (-5)]) ∧
      (Binary64.ofInt (-5)).isNaN = false ∧ column.sort .ascending = .ok (.ofList [0, 1]) := by
  refine ⟨_, _, rfl, rfl, rfl, rfl, rfl, ?_, ?_⟩
  · decide
  · cbv

end Column

end Columnar
