import Columnar.Proofs.Ingest.Columns

/-!
# Writing one by one and all at once

A column can be written value by value, or be made of all values at once. Either way it reads the
same values, and a nominal column enters the texts of its dictionary in the same order. Written for
a dense layout, the two columns are also stored alike. A value of another type is an invalid
argument for both, and a builder that refuses it goes on as if it had never been pushed.
-/

set_option autoImplicit false
set_option relaxedAutoImplicit false

namespace Columnar

/-- A column of this type that reads these values in normal form, row by row. -/
structure Column.ReadsAs (column : Column) (type : ColumnType) (values : List Value) : Prop where
  type_eq : column.type = type
  size_eq : column.size = values.length
  get_eq : ∀ (row : Nat) (value : Value), values[row]? = some value →
    column.get row = .ok (type.normalize value)

theorem ColumnData.Written.readsAs {minSparsity : Float} {final : FinalLayout} {values : List Value}
    {type : ColumnType} {data : ColumnData} (h : data.Written minSparsity final values type)
    (haccepts : ∀ value ∈ values, type.accepts value) :
    Column.ReadsAs ⟨type, data⟩ type values where
  type_eq := rfl
  size_eq := h.size
  get_eq := by
    intro row value hvalue
    have hlt : row < data.size := by
      rw [h.size]
      exact (List.getElem?_eq_some_iff.mp hvalue).1
    rw [← h.valueAt haccepts hvalue]
    exact Column.get_of_lt hlt

/-- The dictionary of written values has their texts in the order of first appearance, whatever the
layout. -/
theorem ColumnData.Written.texts_eq {minSparsity weight : Float} {final last : FinalLayout}
    {values : List Value} {type : ColumnType} {data other : ColumnData}
    (h : data.Written minSparsity final values type)
    (hother : other.Written weight last values type) :
    (Column.mk type data).dictionary?.map (·.value.texts) =
      (Column.mk type other).dictionary?.map (·.value.texts) := by
  cases h with
  | numbers htype => cases hother <;> first | rfl | simp at htype
  | times => cases hother <;> rfl
  | instants => cases hother <;> rfl
  | categories hinterned =>
    cases hother with
    | numbers htype => simp at htype
    | categories hinterned' =>
      obtain ⟨-, hdictionary⟩ := hinterned.unique hinterned'
      exact congrArg (fun dictionary ↦ some dictionary.texts) hdictionary
    | objects htype => simp at htype
  | objects htype => cases hother <;> first | rfl | simp at htype

namespace ColumnBuilder

variable {type : ColumnType} {options : IngestOptions}

/-- Whatever was pushed before, a value that the type accepts is written, unless room is lacking,
and any other is refused as an argument and changes nothing. -/
theorem push_pushAll {start : ColumnBuilder} {before after : List Value} {value : Value}
    (h : start.Holds options [] type) (hroom : ¬start.RunsShort (before ++ value :: after))
    (hlength : before.length < rowLimit) :
    (type.accepts value → ∃ next, (start.pushAll before).push value = .done () next) ∧
      (¬type.accepts value → ∃ reason, (start.pushAll before).push value =
        .refused (.invalidArgument "value" reason) (start.pushAll before)) := by
  have hholds := h.pushAll before (Nat.le_of_lt hlength)
  rw [List.nil_append] at hholds
  have hwritten : (before.filter type.accepts).length < rowLimit :=
    Nat.lt_of_le_of_lt (List.length_filter_le _ _) hlength
  constructor
  · intro haccepts
    obtain ⟨next, -, hpush | ⟨hpush, hlacks⟩, -⟩ := push_cases hholds hwritten haccepts
    · exact ⟨next, hpush⟩
    · exact absurd (runsShort_append.mpr (.inr (.here hpush hlacks))) hroom
  · intro haccepts
    rw [← hholds.type_eq] at haccepts
    exact push_of_not_accepts _ haccepts

/-- Values pushed one by one make the column that they make all at once, and the same values are
refused, unless writing them halts for want of room for the expected rows. -/
theorem pushAll_agrees_with_ofValues (values : List Value) (final : FinalLayout)
    (fresh token : Token) (hlength : values.length ≤ rowLimit) :
    (Halts type options values → type.roomLimit < options.expected) ∧
    (¬Halts type options values → ∃ start, ofType type options = .ok start ∧
      (∀ (row : Nat) (value : Value), values[row]? = some value →
        (type.accepts value →
          ∃ next, (start.pushAll (values.take row)).push value = .done () next) ∧
        (¬type.accepts value →
          ∃ reason, (start.pushAll (values.take row)).push value =
            .refused (.invalidArgument "value" reason) (start.pushAll (values.take row)))) ∧
      ((∃ value ∈ values, ¬type.accepts value) →
        ∃ reason, Column.ofValues type values token = .error (.invalidArgument "values" reason)) ∧
      ((∀ value ∈ values, type.accepts value) →
        ∃ written bulk, (start.pushAll values).finish final fresh = .ok written ∧
          Column.ofValues type values token = .ok bulk ∧
          written.ReadsAs type values ∧ bulk.ReadsAs type values ∧
          written.dictionary?.map (·.value.texts) = bulk.dictionary?.map (·.value.texts) ∧
          (final = .dense → written.data.Alike bulk.data))) := by
  refine ⟨fun hhalts ↦ hhalts.roomLimit_lt hlength, ?_⟩
  intro hroom
  obtain ⟨start, hstart, hholds⟩ := exists_ofType hroom
  have hshort : ¬start.RunsShort values := fun hshort ↦ hroom (.push hstart hshort)
  refine ⟨start, hstart, ?_, ?_, ?_⟩
  · intro row value hvalue
    obtain ⟨hlt, rfl⟩ := List.getElem?_eq_some_iff.mp hvalue
    have hvalues : values.take row ++ values[row] :: values.drop (row + 1) = values := by
      rw [← List.drop_eq_getElem_cons hlt, List.take_append_drop]
    apply push_pushAll hholds (hvalues.symm ▸ hshort)
    rw [List.length_take, Nat.min_eq_left (Nat.le_of_lt hlt)]
    exact Nat.lt_of_lt_of_le hlt hlength
  · rintro ⟨value, hvalue, hrefused⟩
    exact Column.ofValues_of_not_accepts token fun haccepts ↦ hrefused (haccepts value hvalue)
  · intro haccepts
    have hpushed := hholds.pushAll values hlength
    rw [List.nil_append, List.filter_eq_self.mpr haccepts] at hpushed
    obtain ⟨data, hfinish, hwritten⟩ := exists_finish hpushed hlength haccepts final fresh
    obtain ⟨bulk, hbulk, hdense⟩ :=
      Column.exists_ofAccepted hlength haccepts options.minSparsity token
    rw [← Column.ofValues_of_accepts token haccepts] at hbulk
    refine ⟨⟨type, data⟩, ⟨type, bulk⟩, hfinish, hbulk, hwritten.readsAs haccepts,
      hdense.readsAs haccepts, hwritten.texts_eq hdense, ?_⟩
    rintro rfl
    exact hwritten.alike hdense

/-- Three categories are too few for an inspection, so it does no harm to expect more rows than any
storage has room for. -/
theorem pushAll_agrees_with_ofValues_categories :
    ∃ start written bulk,
      ofType .nominal { expectedRows := some 4611686018427387904 } = .ok start ∧
      (start.pushAll [.text "north", .missing, .text "north"]).finish .sparse 1 = .ok written ∧
      Column.ofValues .nominal [.text "north", .missing, .text "north"] 2 = .ok bulk ∧
      written.get 1 = .ok .missing ∧ written.get 2 = .ok (.text "north") ∧
      bulk.get 2 = .ok (.text "north") := by
  obtain ⟨-, hagrees⟩ := @pushAll_agrees_with_ofValues .nominal
    { expectedRows := some 4611686018427387904 } [.text "north", .missing, .text "north"] .sparse
    1 2 (by decide)
  obtain ⟨start, hstart, -, -, haccepted⟩ :=
    hagrees (not_halts_of_lt_check (by decide) (by decide) (by decide))
  obtain ⟨written, bulk, hwritten, hbulk, hread, hreadBulk, -, -⟩ := haccepted (by decide)
  exact ⟨start, written, bulk, hstart, hwritten, hbulk, hread.get_eq 1 _ rfl,
    hread.get_eq 2 _ rfl, hreadBulk.get_eq 2 _ rfl⟩

/-- Not even one value can be written when too many rows are expected. -/
theorem not_exists_push_beyond_room :
    ¬∃ start next, ofType .real .beyondRoom = .ok start ∧ start.push .missing = .done () next := by
  rintro ⟨start, next, hstart, hpush⟩
  obtain ⟨start', next', hstart', hpush'⟩ :=
    @push_real_of_no_room .beyondRoom .missing rfl rfl rfl (by decide)
  rw [hstart] at hstart'
  cases hstart'
  rw [hpush] at hpush'
  contradiction

end ColumnBuilder

end Columnar
