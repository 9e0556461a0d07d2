import Columnar.Proofs.Binary64.Rounding
import Columnar.Proofs.Layout.Deriving
import Columnar.Proofs.Outcome

/-!
# Valid columns

Column data is valid for a type when it is over the kind of store that the type asks for and every
stored cell is one that the type allows. The gate `Column.ofData` accepts exactly the valid data
(`ofData_eq_ok_iff`), and the constructors that pass it by make nothing else
(`Constructed.valid`).
-/

set_option autoImplicit false
set_option relaxedAutoImplicit false

namespace Columnar

namespace ColumnData

/-- Every stored cell is allowed in a column of this type. The format of category indices also holds
the whole dictionary. -/
def StoresFor (type : ColumnType) : ColumnData → Prop
  | numbers layout =>
    type = .integer → ∀ number ∈ Column.storedCells layout, number.isFinite → number.isIntegral
  | times _ | instants _ => True
  | categories layout dictionary =>
    layout.prototype.format.fits dictionary.value.maxIndex ∧
      ∀ index ∈ Column.storedCells layout, index ≤ dictionary.value.maxIndex
  | objects layout => ∀ value ∈ Column.storedCells layout, type.accepts value

structure Valid (data : ColumnData) (type : ColumnType) : Prop where
  holds : data.holds type
  stores : data.StoresFor type

/-- Only nominal columns have a dictionary. -/
theorem Valid.eq_nominal {layout : Layout IndexArray Nat} {dictionary : Shared Dictionary}
    {type : ColumnType} (h : (categories layout dictionary).Valid type) : type = .nominal := by
  have hholds := h.holds
  cases type <;> first | rfl | contradiction

/-- Indices up to the last one of the dictionary make nominal data. -/
theorem valid_of_maxIndex {layout : Layout IndexArray Nat} {dictionary : Shared Dictionary}
    {last : Nat} (hlast : dictionary.value.maxIndex = last)
    (hfits : layout.prototype.format.fits last)
    (hbound : ∀ index ∈ Column.storedCells layout, index ≤ last) :
    (categories layout dictionary).Valid .nominal := by
  subst hlast
  exact ⟨rfl, hfits, hbound⟩

end ColumnData

namespace Column

/-! ### The checks -/

theorem foldl_max_le_iff {indices : List Nat} {least bound : Nat} :
    indices.foldl max least ≤ bound ↔ least ≤ bound ∧ ∀ index ∈ indices, index ≤ bound := by
  induction indices generalizing least with
  | nil => simp
  | cons index indices ih =>
    rw [List.foldl_cons, ih, Nat.max_le, List.forall_mem_cons, and_assoc]

theorem checkCategories_eq_ok_iff {layout : Layout IndexArray Nat} {dictionary : Dictionary} :
    checkCategories layout dictionary = .ok () ↔
      layout.prototype.format.fits dictionary.maxIndex ∧
        ∀ index ∈ storedCells layout, index ≤ dictionary.maxIndex := by
  have hlargest : (storedCells layout).foldl max 0 ≤ dictionary.maxIndex ↔
      ∀ index ∈ storedCells layout, index ≤ dictionary.maxIndex := by
    rw [foldl_max_le_iff]
    exact and_iff_right (Nat.zero_le _)
  rw [← hlargest]
  unfold checkCategories
  by_cases hformat : layout.prototype.format.fits dictionary.maxIndex
  · by_cases hlast : dictionary.maxIndex < (storedCells layout).foldl max 0
    · simp [hformat, hlast]
    · simpa [hformat, hlast] using Nat.not_lt.mp hlast
  · simp [hformat]

theorem checkObjects_eq_ok_iff {type : ColumnType} {layout : Layout ObjectStore Value} :
    checkObjects type layout = .ok () ↔ ∀ value ∈ storedCells layout, type.accepts value := by
  unfold checkObjects
  cases hfind : (storedCells layout).find? fun value ↦ !type.accepts value with
  | none => simpa using hfind
  | some value =>
    have hmem := List.mem_of_find?_eq_some hfind
    have hrefused := List.find?_some hfind
    simp only [reduceCtorEq, false_iff]
    intro hall
    simp [hall value hmem] at hrefused

theorem checkIntegers_eq_ok_iff {layout : Layout NumberStore Binary64} :
    checkIntegers layout = .ok () ↔
      ∀ number ∈ storedCells layout, number.isFinite → number.isIntegral := by
  unfold checkIntegers
  cases hfind : (storedCells layout).find? fun number ↦ number.isFinite && !number.isIntegral with
  | none => simpa using hfind
  | some number =>
    have hmem := List.mem_of_find?_eq_some hfind
    have hrefused := List.find?_some hfind
    simp only [reduceCtorEq, false_iff]
    intro hall
    simp only [Bool.and_eq_true, Bool.not_eq_true'] at hrefused
    rw [hall number hmem hrefused.1] at hrefused
    simp at hrefused

/-- The gate accepts the valid data and nothing else. -/
theorem ofData_eq_ok_iff {type : ColumnType} {data : ColumnData} {column : Column} :
    ofData type data = .ok column ↔ column = ⟨type, data⟩ ∧ data.Valid type := by
  have hvalid : data.Valid type ↔ data.holds type ∧ data.StoresFor type :=
    ⟨fun h ↦ ⟨h.holds, h.stores⟩, fun h ↦ ⟨h.1, h.2⟩⟩
  rw [hvalid]
  unfold ofData
  by_cases hholds : data.holds type
  · simp only [hholds, if_true, true_and]
    have hchecked {check : Outcome Unit} {stores : Prop} (h : check = .ok () ↔ stores) :
        (check >>= fun _ ↦ (.ok ⟨type, data⟩ : Outcome Column)) = .ok column ↔
          column = ⟨type, data⟩ ∧ stores := by
      rw [Outcome.check_eq_ok_iff, h, and_comm]
    have hunchecked {stores : Prop} (h : stores) :
        (.ok ⟨type, data⟩ : Outcome Column) = .ok column ↔ column = ⟨type, data⟩ ∧ stores := by
      simp [h, eq_comm]
    cases data with
    | numbers layout =>
      by_cases hinteger : type = .integer
      · subst hinteger
        apply hchecked
        rw [checkIntegers_eq_ok_iff]
        simp [ColumnData.StoresFor]
      · simp only [if_neg hinteger]
        exact hunchecked fun h ↦ absurd h hinteger
    | times layout => exact hunchecked trivial
    | instants layout => exact hunchecked trivial
    | categories layout dictionary => exact hchecked checkCategories_eq_ok_iff
    | objects layout => exact hchecked checkObjects_eq_ok_iff
  · simp [hholds, throw, throwThe, MonadExceptOf.throw]

theorem ofData_of_valid {type : ColumnType} {data : ColumnData} (h : data.Valid type) :
    ofData type data = .ok ⟨type, data⟩ :=
  ofData_eq_ok_iff.mpr ⟨rfl, h⟩

/-! ### The constructors -/

/-- What the constructors make. -/
inductive Constructed : Column → Prop
  | real (numbers : List Binary64) : Constructed (real numbers)
  | integer (numbers : List Binary64) : Constructed (integer numbers)
  | time {nanos : List Int} {column : Column} (h : time nanos = .ok column) : Constructed column
  | dateTime {seconds : List Int} {nanos : Option (List Nat)} {column : Column}
    (h : dateTime seconds nanos = .ok column) : Constructed column
  | categorical {indices : IndexArray} {dictionary : Shared Dictionary} {column : Column}
    (h : categorical indices dictionary = .ok column) : Constructed column
  | ofValues {type : ColumnType} {values : List Value} {fresh : Token} {column : Column}
    (h : ofValues type values fresh = .ok column) : Constructed column
  | ofData {type : ColumnType} {data : ColumnData} {column : Column}
    (h : ofData type data = .ok column) : Constructed column

theorem valid_real (numbers : List Binary64) : (real numbers).data.Valid .real :=
  ⟨rfl, nofun⟩

theorem valid_integer (numbers : List Binary64) : (integer numbers).data.Valid .integer := by
  refine ⟨rfl, ?_⟩
  intro _ number hnumber hfinite
  have hmem : number ∈ Store.toList (NumberStore.mk (numbers.map Binary64.round).toArray) := hnumber
  rw [NumberStore.toList_mk] at hmem
  obtain ⟨source, -, rfl⟩ := List.mem_map.mp hmem
  exact Binary64.isIntegral_of_isFinite_round hfinite

/-! ### Columns of values -/

theorem find?_refused_eq_none_iff {type : ColumnType} {values : List Value} :
    (values.zipIdx.find? fun (value, _) ↦ !type.accepts value) = none ↔
      ∀ value ∈ values, type.accepts value := by
  rw [List.find?_eq_none]
  constructor
  · intro h value hvalue
    obtain ⟨place, hplace, rfl⟩ := List.mem_iff_getElem.mp hvalue
    have hmem : (values[place], place) ∈ values.zipIdx := by
      rw [List.mk_mem_zipIdx_iff_getElem?]
      exact List.getElem?_eq_getElem hplace
    simpa using h _ hmem
  · rintro h ⟨value, place⟩ hmem
    have hvalue : value ∈ values := List.fst_mem_of_mem_zipIdx hmem
    simp [h value hvalue]

/-- The dense column of values that the type accepts. -/
def ofAccepted (type : ColumnType) (values : List Value) (fresh : Token) : Outcome Column :=
  match type with
  | .real => .ok (real (values.map numberOf))
  | .integer => .ok (integer (values.map numberOf))
  | .nominal => do
    let entered := Attempt.runAll indexOf (fun index _ ↦ index) .empty values
    let indices ← entered.outcome
    let format ← IndexFormat.ofDictionarySize entered.state.size
    categorical (← IndexArray.ofList format indices) ⟨fresh, entered.state⟩
  | .time => do
    let store ← TimeStore.ofList (values.map nanosOf)
    .ok ⟨type, .times (.dense store)⟩
  | .dateTime =>
    .ok ⟨type, .instants (.dense (.ofInstants values.length (values.map instantOf)))⟩
  | .text | .textSet | .custom => .ok ⟨type, .objects (.dense ⟨values.toArray⟩)⟩

theorem ofValues_of_accepts {type : ColumnType} {values : List Value} (fresh : Token)
    (h : ∀ value ∈ values, type.accepts value) :
    ofValues type values fresh = ofAccepted type values fresh := by
  have hfind := find?_refused_eq_none_iff.mpr h
  unfold ofValues
  rw [hfind]
  cases type <;> rfl

/-- A value that the type does not accept is refused as an argument. -/
theorem ofValues_of_not_accepts {type : ColumnType} {values : List Value} (fresh : Token)
    (h : ¬∀ value ∈ values, type.accepts value) :
    ∃ reason, ofValues type values fresh = .error (.invalidArgument "values" reason) := by
  rw [← find?_refused_eq_none_iff, ← Ne, Option.ne_none_iff_exists'] at h
  obtain ⟨⟨value, row⟩, hfind⟩ := h
  unfold ofValues
  rw [hfind]
  cases type <;> exact ⟨_, rfl⟩

theorem valid_objects {type : ColumnType} {values : List Value}
    (hholds : (ColumnData.objects (.dense ⟨values.toArray⟩)).holds type)
    (h : ∀ value ∈ values, type.accepts value) :
    (ColumnData.objects (.dense ⟨values.toArray⟩)).Valid type := by
  refine ⟨hholds, fun value hvalue ↦ h value ?_⟩
  have hmem : value ∈ Store.toList (ObjectStore.mk values.toArray) := hvalue
  rwa [ObjectStore.toList_mk] at hmem

theorem valid_of_ofAccepted {type : ColumnType} {values : List Value} {fresh : Token}
    {column : Column} (haccepts : ∀ value ∈ values, type.accepts value)
    (h : ofAccepted type values fresh = .ok column) : column.data.Valid column.type := by
  cases type with
  | real => cases h; exact valid_real _
  | integer => cases h; exact valid_integer _
  | nominal =>
    obtain ⟨indices, -, h⟩ := Outcome.bind_eq_ok_iff.mp h
    obtain ⟨format, -, h⟩ := Outcome.bind_eq_ok_iff.mp h
    obtain ⟨array, -, h⟩ := Outcome.bind_eq_ok_iff.mp h
    obtain ⟨rfl, hvalid⟩ := ofData_eq_ok_iff.mp h
    exact hvalid
  | time =>
    obtain ⟨store, -, h⟩ := Outcome.bind_eq_ok_iff.mp h
    cases h
    exact ⟨rfl, trivial⟩
  | dateTime => cases h; exact ⟨rfl, trivial⟩
  | text => cases h; exact valid_objects rfl haccepts
  | textSet => cases h; exact valid_objects rfl haccepts
  | custom => cases h; exact valid_objects rfl haccepts

/-- Every constructor makes a valid column. -/
theorem Constructed.valid {column : Column} (h : Constructed column) :
    column.data.Valid column.type := by
  have hgate {type : ColumnType} {data : ColumnData} {column : Column}
      (h : Column.ofData type data = .ok column) : column.data.Valid column.type := by
    obtain ⟨rfl, hvalid⟩ := ofData_eq_ok_iff.mp h
    exact hvalid
  cases h with
  | real numbers => exact valid_real numbers
  | integer numbers => exact valid_integer numbers
  | time h =>
    obtain ⟨store, -, h⟩ := Outcome.bind_eq_ok_iff.mp h
    cases h
    exact ⟨rfl, trivial⟩
  | dateTime h =>
    obtain ⟨store, -, h⟩ := Outcome.bind_eq_ok_iff.mp h
    cases h
    exact ⟨rfl, trivial⟩
  | categorical h => exact hgate h
  | @ofValues type values fresh column h =>
    by_cases haccepts : ∀ value ∈ values, type.accepts value
    · rw [ofValues_of_accepts fresh haccepts] at h
      exact valid_of_ofAccepted haccepts h
    · obtain ⟨reason, hrefused⟩ := ofValues_of_not_accepts fresh haccepts
      rw [hrefused] at h
      contradiction
  | ofData h => exact hgate h

end Column

end Columnar
