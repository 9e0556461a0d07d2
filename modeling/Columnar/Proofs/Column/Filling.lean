import Columnar.Proofs.Column.Reaching
import Columnar.Proofs.Layout.Bounding

/-!
# Filling buffers from columns

A fill writes as many rows from `start` on as there are and as find their places in the buffer, row
`start + k` to place `offset + k * step`, and nothing else (`FillsRows`). Its refusals come in a
fixed order, before anything is written (`FillLaw`): the type of the column, the step, the start.
All columns obey this for numbers, values and indices (`fillsStrided_of_valid`).
-/

set_option autoImplicit false
set_option relaxedAutoImplicit false

namespace Columnar

namespace ColumnData

/-- The row as a number. Instants and objects have none. -/
def numberAt (data : ColumnData) (row : Nat) : Binary64 :=
  match data with
  | numbers layout => layout.read row
  | times layout => Column.timeNumber (layout.read row)
  | categories layout _ => Column.categoryNumber (layout.read row)
  | _ => .nan

/-- The row as a category index. -/
def indexAt (data : ColumnData) (row : Nat) : Nat :=
  match data with
  | categories layout _ => layout.read row
  | _ => 0

end ColumnData

/-! ### The rows that a fill writes -/

/-- The buffer `filled` after a fill of `count` rows of a column of `size` rows. -/
structure FillsRows {T : Type} (size : Nat) (cell : Nat → T) (buffer : Array T)
    (start offset step count : Nat) (filled : Array T) : Prop where
  size_eq : filled.size = buffer.size
  /-- All of them are rows of the column. -/
  rows : start + count ≤ size
  /-- All their places are in the buffer. -/
  inside : ∀ k < count, offset + k * step < buffer.size
  /-- No larger number would do. -/
  most : ∀ more, start + more ≤ size → (∀ k < more, offset + k * step < buffer.size) → more ≤ count
  /-- Every row is in its place. -/
  written : ∀ k < count, filled[offset + k * step]? = some (cell (start + k))
  /-- Every other place is as it was. -/
  unchanged : ∀ place, (∀ k < count, place ≠ offset + k * step) → filled[place]? = buffer[place]?

section Rows

variable {T : Type} {size : Nat} {cell : Nat → T} {buffer filled : Array T}
  {start offset step count : Nat}

theorem FillsRows.lt_iff (h : FillsRows size cell buffer start offset step count filled) {k : Nat} :
    k < count ↔ start + k < size ∧ offset + k * step < buffer.size := by
  constructor
  · intro hk
    exact ⟨Nat.lt_of_lt_of_le (Nat.add_lt_add_left hk start) h.rows, h.inside k hk⟩
  · rintro ⟨hrow, hplace⟩
    refine h.most (k + 1) hrow fun other hother ↦ Nat.lt_of_le_of_lt ?_ hplace
    exact Nat.add_le_add_left (Nat.mul_le_mul_right step (Nat.le_of_lt_succ hother)) offset

theorem Layout.fillsRows {S C : Type} [Cell C] [Store S C] {layout : Layout S C} {convert : C → T}
    (hformed : layout.Formed) (hstep : 0 < step) (hstart : start ≤ layout.size) :
    FillsRows layout.size (fun row ↦ convert (layout.read row)) buffer start offset step
      (fillCount layout.size start buffer.size offset step)
      (layout.fill buffer start offset step convert) := by
  have hcount {k : Nat} := @lt_fillCount_iff layout.size start buffer.size offset step k hstep
  refine ⟨size_fill, ?_, fun k hk ↦ (hcount.mp hk).2, ?_, fun k hk ↦ getElem?_fill hformed hstep hk,
    fun place hplace ↦ getElem?_fill_of_ne hplace⟩
  · refine Nat.le_of_not_lt fun hover ↦ ?_
    have hlast := (@hcount (layout.size - start)).mp (by omega)
    omega
  · intro more hrows hinside
    refine Nat.le_of_not_lt fun hless ↦ ?_
    exact Nat.lt_irrefl _ (hcount.mpr ⟨by omega, hinside _ hless⟩)

end Rows

namespace Column

variable {column : Column} {start offset step : Nat}

/-! ### How a fill answers -/

/-- The answer of a fill. A refusal comes without a buffer: nothing has been written. -/
structure FillLaw {T : Type} (column : Column) (supported : Prop) (operation : String)
    (cell : Nat → T) (buffer : Array T) (start offset step : Nat)
    (outcome : Outcome (Nat × Array T)) : Prop where
  unsupported : ¬supported → outcome = .error (.unsupported operation column.type.name)
  step_zero : supported → step = 0 → outcome = .error (.invalidArgument "step" "step > 0")
  past_end : supported → 0 < step → column.size < start →
    outcome = .error (.outOfBounds start column.size)
  fills : supported → 0 < step → start ≤ column.size → ∃ count filled,
    outcome = .ok (count, filled) ∧
      FillsRows column.size cell buffer start offset step count filled

theorem checkFill_eq {bufferSize : Nat} (hstep : 0 < step) (hstart : start ≤ column.size) :
    column.checkFill bufferSize start offset step =
      .ok (Layout.fillCount column.size start bufferSize offset step) := by
  unfold checkFill Fault.require
  rw [if_pos (decide_eq_true hstep), Outcome.ok_bind, if_neg (Nat.not_lt.mpr hstart)]
  rfl

section Laws

variable {T : Type} {supported : Prop} {operation : String} {cell : Nat → T} {buffer : Array T}
  {outcome : Outcome (Nat × Array T)}

theorem fillLaw_of_not (hsupported : ¬supported)
    (houtcome : outcome = .error (.unsupported operation column.type.name)) :
    column.FillLaw supported operation cell buffer start offset step outcome :=
  ⟨fun _ ↦ houtcome, fun h ↦ absurd h hsupported, fun h ↦ absurd h hsupported,
    fun h ↦ absurd h hsupported⟩

/-- A fill of the layout, once the type supports it and the arguments are accepted. -/
theorem fillLaw_of_layout {S C : Type} [Cell C] [Store S C] {layout : Layout S C} (convert : C → T)
    (hformed : layout.Formed) (hsize : layout.size = column.size)
    (hcell : ∀ row, convert (layout.read row) = cell row)
    (hunsupported : ¬supported → outcome = .error (.unsupported operation column.type.name))
    (houtcome : supported → outcome =
      column.checkFill buffer.size start offset step >>= fun count ↦
        .ok (count, layout.fill buffer start offset step convert)) :
    column.FillLaw supported operation cell buffer start offset step outcome := by
  refine ⟨hunsupported, ?_, ?_, ?_⟩
  · rintro hsupported rfl
    rw [houtcome hsupported]
    rfl
  · intro hsupported hstep hstart
    rw [houtcome hsupported, checkFill, Fault.require, if_pos (decide_eq_true hstep),
      Outcome.ok_bind, if_pos hstart]
    rfl
  · intro hsupported hstep hstart
    have hfills : FillsRows layout.size (fun row ↦ convert (layout.read row)) buffer start offset
        step (Layout.fillCount layout.size start buffer.size offset step)
        (layout.fill buffer start offset step convert) :=
      Layout.fillsRows hformed hstep (hsize ▸ hstart)
    rw [hsize, funext hcell] at hfills
    rw [houtcome hsupported, checkFill_eq hstep hstart]
    exact ⟨_, _, rfl, hfills⟩

/-- A fill of the layout that asks for a capability first. -/
theorem fillLaw_of_require {S C : Type} [Cell C] [Store S C] {layout : Layout S C}
    {capability : Capability} (convert : C → T) (hformed : layout.Formed)
    (hsize : layout.size = column.size) (hcell : ∀ row, convert (layout.read row) = cell row)
    (houtcome : outcome = column.require capability operation >>= fun _ ↦
      column.checkFill buffer.size start offset step >>= fun count ↦
        .ok (count, layout.fill buffer start offset step convert)) :
    column.FillLaw (column.type.supports capability) operation cell buffer start offset step
      outcome := by
  apply fillLaw_of_layout convert hformed hsize hcell
  · intro h
    rw [houtcome, require, if_neg h]
    rfl
  · intro h
    rw [houtcome, require, if_pos h]
    rfl

/-- A row that a fill reaches is in its place. -/
theorem FillLaw.exists_written
    (h : column.FillLaw supported operation cell buffer start offset step outcome)
    (hsupported : supported) (hstep : 0 < step) {row : Nat} (hstart : start ≤ row)
    (hrow : row < column.size) (hroom : offset + (row - start) * step < buffer.size) :
    ∃ count filled, outcome = .ok (count, filled) ∧
      filled[offset + (row - start) * step]? = some (cell row) := by
  obtain ⟨count, filled, houtcome, hfills⟩ :=
    h.fills hsupported hstep (Nat.le_of_lt (Nat.lt_of_le_of_lt hstart hrow))
  have hplace : start + (row - start) = row := Nat.add_sub_cancel' hstart
  have hwritten := hfills.written _ (hfills.lt_iff.mpr ⟨hplace.symm ▸ hrow, hroom⟩)
  rw [hplace] at hwritten
  exact ⟨count, filled, houtcome, hwritten⟩

end Laws

/-- The fills of a column write exactly their rows. -/
structure FillsStrided (column : Column) : Prop where
  numbers : ∀ (buffer : Array Binary64) (start offset step : Nat),
    column.FillLaw (column.type.supports .numericReadable) "fill_numeric" column.data.numberAt
      buffer start offset step (column.fillNumbers buffer start offset step)
  values : ∀ (buffer : Array Value) (start offset step : Nat),
    column.FillLaw (column.type.supports .objectReadable) "fill_objects" column.data.valueAt
      buffer start offset step (column.fillValues buffer start offset step)
  indices : ∀ (buffer : Array Nat) (start : Nat),
    column.FillLaw (column.type = .nominal) "fill_indices" column.data.indexAt
      buffer start 0 1 (column.fillIndices buffer start)
  /-- No read or write on the way is out of bounds. -/
  inside : column.data.onLayout fun {_ C} _ _ layout ↦
    ∀ {T : Type} (buffer : Array T) (start offset step : Nat) (convert : C → T), 0 < step →
      layout.fill? buffer start offset step convert =
        some (layout.fill buffer start offset step convert)

section Fills

variable (hvalid : column.data.Valid column.type)
  (hformed : column.data.onLayout fun layout ↦ layout.Formed)

include hvalid hformed

theorem fillNumbers_law (buffer : Array Binary64) (start offset step : Nat) :
    column.FillLaw (column.type.supports .numericReadable) "fill_numeric" column.data.numberAt
      buffer start offset step (column.fillNumbers buffer start offset step) := by
  have hholds := hvalid.holds
  obtain ⟨type, data⟩ := column
  cases data with
  | numbers layout => exact fillLaw_of_require id hformed rfl (fun _ ↦ rfl) rfl
  | times layout => exact fillLaw_of_require timeNumber hformed rfl (fun _ ↦ rfl) rfl
  | categories layout dictionary =>
    exact fillLaw_of_require categoryNumber hformed rfl (fun _ ↦ rfl) rfl
  | _ =>
    have hsupported : ¬type.supports .numericReadable := by
      cases type <;> first | contradiction | decide
    refine fillLaw_of_not hsupported ?_
    rw [fillNumbers, require, if_neg hsupported]
    rfl

theorem fillValues_law (buffer : Array Value) (start offset step : Nat) :
    column.FillLaw (column.type.supports .objectReadable) "fill_objects" column.data.valueAt
      buffer start offset step (column.fillValues buffer start offset step) := by
  have hholds := hvalid.holds
  obtain ⟨type, data⟩ := column
  cases data with
  | times layout => exact fillLaw_of_require timeValue hformed rfl (fun _ ↦ rfl) rfl
  | instants layout => exact fillLaw_of_require .ofInstant? hformed rfl (fun _ ↦ rfl) rfl
  | categories layout dictionary =>
    exact fillLaw_of_require (categoryValue dictionary.value) hformed rfl (fun _ ↦ rfl) rfl
  | objects layout => exact fillLaw_of_require id hformed rfl (fun _ ↦ rfl) rfl
  | numbers layout =>
    have hsupported : ¬type.supports .objectReadable := by
      cases type <;> first | contradiction | decide
    refine fillLaw_of_not hsupported ?_
    rw [fillValues, require, if_neg hsupported]
    rfl

theorem fillIndices_law (buffer : Array Nat) (start : Nat) :
    column.FillLaw (column.type = .nominal) "fill_indices" column.data.indexAt
      buffer start 0 1 (column.fillIndices buffer start) := by
  have hholds := hvalid.holds
  obtain ⟨type, data⟩ := column
  cases data with
  | categories layout dictionary =>
    exact fillLaw_of_layout id hformed rfl (fun _ ↦ rfl) (absurd hvalid.eq_nominal) fun _ ↦ rfl
  | _ =>
    refine fillLaw_of_not ?_ rfl
    rintro rfl
    contradiction

theorem fillsStrided_of_valid : column.FillsStrided :=
  ⟨fillNumbers_law hvalid hformed, fillValues_law hvalid hformed, fillIndices_law hvalid hformed,
    ColumnData.onLayout_imp hformed fun _ hformed _ _ _ _ _ _ ↦ Layout.fill?_eq_some hformed⟩

end Fills

end Column

end Columnar
