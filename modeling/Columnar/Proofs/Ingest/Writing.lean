import Columnar.Proofs.Dictionary.Interning
import Columnar.Proofs.Ingest.Layouts
import Columnar.Proofs.Ingest.Phases

/-!
# Writing values one by one

A column builder holds the cells of the values written so far, in order (`ColumnBuilder.Holds`). A
value of another type is refused and leaves the builder as it is (`push_of_not_accepts`). A value
that its type accepts is recorded, and the push fails only if the storage has to make room for all
expected rows, and there is no such room (`push_cases`, `ColumnBuilder.LacksRoom`). So writing many
values succeeds unless it halts for want of room (`exists_write`, `Halts`). It never does when the
expected rows fit into any storage of the type (`Halts.roomLimit_lt`), nor when there are too few
values for an inspection (`not_halts_of_lt_check`).
-/

set_option autoImplicit false
set_option relaxedAutoImplicit false

namespace Columnar

/-- So many cells have room in any storage of the type. -/
def ColumnType.roomLimit : ColumnType → Nat
  | .real | .integer | .time => Word.elements 8
  | .nominal => Word.elements 4
  | .dateTime | .text | .textSet | .custom => Word.elements 24

/-- The rows for which room is made at the start. -/
def ColumnType.initialRoom (type : ColumnType) (options : IngestOptions) : Nat :=
  match type with
  | .text | .textSet | .custom => options.expected
  | _ => min options.expected options.checkRows

theorem ColumnType.initialRoom_le (type : ColumnType) (options : IngestOptions) :
    type.initialRoom options ≤ options.expected := by
  cases type <;> first | exact Nat.min_le_left _ _ | exact Nat.le_refl _

/-- Options that expect more rows than any storage has room for. The inspection of the first row
always keeps dense storage. -/
def IngestOptions.beyondRoom : IngestOptions :=
  { checkRows := 1, minSparsity := 2, expectedRows := some 4611686018427387904 }

namespace ColumnBuilder

/-- The builder after writing these values, one by one. -/
def write (type : ColumnType) (options : IngestOptions) (values : List Value) :
    Outcome ColumnBuilder := do
  let builder ← ofType type options
  (Attempt.runAll push (fun _ _ ↦ ()) builder values).reached

/-- The builder after these values were pushed one by one, whether they were taken or not. -/
def pushAll (builder : ColumnBuilder) (values : List Value) : ColumnBuilder :=
  values.foldl (fun builder value ↦ (builder.push value).state) builder

theorem pushAll_cons (builder : ColumnBuilder) (value : Value) (rest : List Value) :
    builder.pushAll (value :: rest) = (builder.push value).state.pushAll rest := rfl

/-- What a builder of a type has made of the values written. -/
inductive Holds (options : IngestOptions) (values : List Value) : ColumnType → ColumnBuilder → Prop
  | numbers {type : ColumnType} {cells : Accumulator Binary64}
    (htype : type = .real ∨ type = .integer)
    (hcells : cells.Holds options (values.map (numberFor type))) :
    Holds options values type (.numbers type cells)
  | times {cells : Accumulator Int} (hcells : cells.Holds options (values.map Column.nanosOf)) :
    Holds options values .time (.times cells)
  | instants {cells : Accumulator (Option Instant)}
    (hcells : cells.Holds options (values.map Column.instantOf)) :
    Holds options values .dateTime
      (.instants ((values.map Column.instantOf).any (InstantStore.nanosOf · != 0)) cells)
  | categories {indices : List Nat} {dictionary : Dictionary} {cells : Accumulator Nat}
    (hinterned : Column.Interned values indices dictionary)
    (hcells : cells.Holds options indices) :
    Holds options values .nominal (.categories dictionary cells)
  | objects {type : ColumnType} (htype : type = .text ∨ type = .textSet ∨ type = .custom) :
    Holds options values type (.objects type values.toArray)

variable {type : ColumnType} {options : IngestOptions} {values : List Value}
  {builder : ColumnBuilder}

theorem Holds.type_eq (h : builder.Holds options values type) : builder.type = type := by
  cases h <;> rfl

theorem Holds.size_eq (h : builder.Holds options values type) : builder.size = values.length := by
  cases h with
  | numbers _ hcells => simpa [size] using hcells.size_eq
  | times hcells => simpa [size] using hcells.size_eq
  | instants hcells => simpa [size] using hcells.size_eq
  | @categories indices dictionary cells hinterned hcells =>
    exact hcells.size_eq.trans hinterned.length_eq
  | objects => simp [size]

/-! ### Room for the expected rows -/

/-- The storage has to make room for all expected rows, and there is no such room. -/
def LacksRoom : ColumnBuilder → Prop
  | numbers _ cells => cells.LacksRoom 8
  | times cells => cells.LacksRoom 8
  | instants highPrecision cells => cells.LacksRoom (instantBytes highPrecision)
  | categories dictionary cells => ∃ format,
    IndexFormat.ofDictionarySize dictionary.size = .ok format ∧ cells.LacksRoom format.valueBytes
  | objects _ _ => False

/-- Pushing the values one by one, a push fails because its storage lacks room. -/
inductive RunsShort : ColumnBuilder → List Value → Prop
  | here {builder next : ColumnBuilder} {value : Value} {rest : List Value}
    (hpush : builder.push value = .refused .tooLarge next) (hroom : next.LacksRoom) :
    RunsShort builder (value :: rest)
  | later {builder : ColumnBuilder} {value : Value} {rest : List Value}
    (h : RunsShort (builder.push value).state rest) : RunsShort builder (value :: rest)

/-- Writing the values fails for want of room, at the start or with one of the pushes. -/
inductive Halts (type : ColumnType) (options : IngestOptions) (values : List Value) : Prop
  | start (hstart : ofType type options = .error .tooLarge)
    (hroom : type.roomLimit < type.initialRoom options) : Halts type options values
  | push {start : ColumnBuilder} (hstart : ofType type options = .ok start)
    (h : start.RunsShort values) : Halts type options values

theorem runsShort_append {first second : List Value} :
    builder.RunsShort (first ++ second) ↔
      builder.RunsShort first ∨ (builder.pushAll first).RunsShort second := by
  induction first generalizing builder with
  | nil =>
    constructor
    · exact .inr
    · rintro (hshort | hshort)
      · contradiction
      · exact hshort
  | cons value rest ih =>
    rw [List.cons_append, pushAll_cons]
    constructor
    · intro hshort
      cases hshort with
      | here hpush hroom => exact .inl (.here hpush hroom)
      | later hlater => exact (ih.mp hlater).imp_left .later
    · rintro (hshort | hshort)
      · cases hshort with
        | here hpush hroom => exact .here hpush hroom
        | later hlater => exact .later (ih.mpr (.inl hlater))
      · exact .later (ih.mpr (.inr hshort))

/-- Any buffer of the cells has the room of the type. -/
theorem roomLimit_le_sizeLimit_index (buffer : Tracked.Buffer Nat) :
    ColumnType.nominal.roomLimit ≤ Tracked.sizeLimit buffer := by
  show Word.elements 4 ≤ buffer.format.roomLimit
  cases buffer.format <;> decide

/-- A builder that lacks room expects more rows than storages of its type have room for. -/
theorem Holds.roomLimit_lt (h : builder.Holds options values type) (hroom : builder.LacksRoom) :
    type.roomLimit < options.expected := by
  cases h with
  | numbers htype hcells =>
    obtain ⟨_, hlt⟩ := Accumulator.LacksRoom.exists_sizeLimit_lt hroom
    rw [hcells.options_eq] at hlt
    rcases htype with rfl | rfl
    · exact hlt
    · exact hlt
  | times hcells =>
    obtain ⟨_, hlt⟩ := Accumulator.LacksRoom.exists_sizeLimit_lt hroom
    rwa [hcells.options_eq] at hlt
  | instants hcells =>
    obtain ⟨_, hlt⟩ := Accumulator.LacksRoom.exists_sizeLimit_lt hroom
    rwa [hcells.options_eq] at hlt
  | categories hinterned hcells =>
    obtain ⟨_, -, hlacks⟩ := hroom
    obtain ⟨buffer, hlt⟩ := hlacks.exists_sizeLimit_lt
    rw [hcells.options_eq] at hlt
    exact Nat.lt_of_le_of_lt (roomLimit_le_sizeLimit_index buffer) hlt
  | objects => contradiction

/-- A builder that is still dense asks for room only when it is inspected. -/
theorem Holds.length_eq (h : builder.Holds options values type) (hroom : builder.LacksRoom)
    (hstate : builder.state = .dense) : values.length = max options.checkRows 1 := by
  rw [← h.size_eq]
  cases h with
  | numbers htype hcells => exact hcells.options_eq ▸ Accumulator.LacksRoom.size_eq hroom hstate
  | times hcells => exact hcells.options_eq ▸ Accumulator.LacksRoom.size_eq hroom hstate
  | instants hcells => exact hcells.options_eq ▸ Accumulator.LacksRoom.size_eq hroom hstate
  | categories hinterned hcells =>
    obtain ⟨_, -, hlacks⟩ := hroom
    exact hcells.options_eq ▸ hlacks.size_eq hstate
  | objects => contradiction

/-- What making a builder of a type comes to. -/
inductive Starts (type : ColumnType) (options : IngestOptions) : Outcome ColumnBuilder → Prop
  | made {builder : ColumnBuilder} (hholds : builder.Holds options [] type)
    (hstate : builder.state = .dense) : Starts type options (.ok builder)
  | lacksRoom (hroom : type.roomLimit < type.initialRoom options) :
    Starts type options (.error .tooLarge)

/-- A builder of cells is made unless the rows up to their inspection lack room. -/
theorem starts_cells {C : Type} [Tracked C] {wrap : Accumulator C → ColumnBuilder}
    (hholds : (wrap ⟨options, 0, .dense Tracked.emptyBuffer⟩).Holds options [] type)
    (hstate : (wrap ⟨options, 0, .dense Tracked.emptyBuffer⟩).state = .dense)
    (hlimit : type.roomLimit ≤ Tracked.sizeLimit (Tracked.emptyBuffer : Tracked.Buffer C))
    (hinitial : type.initialRoom options = min options.expected options.checkRows) :
    Starts type options (Accumulator.ofOptions options >>= fun cells ↦ .ok (wrap cells)) := by
  rcases Accumulator.ofOptions_cases C options with hok | ⟨herror, hlt⟩
  · rw [hok]
    exact .made hholds hstate
  · rw [herror]
    exact .lacksRoom (hinitial ▸ Nat.lt_of_le_of_lt hlimit hlt)

/-- A builder of objects is made unless the expected rows lack room. -/
theorem starts_objects (htype : type = .text ∨ type = .textSet ∨ type = .custom) :
    Starts type options (Word.requireRoom options.expected ObjectStore.sizeLimit >>= fun _ ↦
      .ok (objects type #[])) := by
  have hlimit : type.roomLimit = ObjectStore.sizeLimit ∧
      type.initialRoom options = options.expected := by
    rcases htype with rfl | rfl | rfl <;> exact ⟨rfl, rfl⟩
  unfold Word.requireRoom
  split
  · exact .made (.objects htype) rfl
  · next hroom =>
    refine .lacksRoom ?_
    rw [hlimit.1, hlimit.2]
    exact Nat.lt_of_not_le hroom

theorem starts_ofType (type : ColumnType) (options : IngestOptions) :
    Starts type options (ofType type options) := by
  have hholds {C : Type} [Tracked C] :
      Accumulator.Holds ⟨options, 0, .dense (Tracked.emptyBuffer : Tracked.Buffer C)⟩ options [] :=
    ⟨rfl, rfl, .dense⟩
  cases type with
  | real => exact starts_cells (.numbers (.inl rfl) hholds) rfl (Nat.le_refl _) rfl
  | integer => exact starts_cells (.numbers (.inr rfl) hholds) rfl (Nat.le_refl _) rfl
  | time => exact starts_cells (.times hholds) rfl (Nat.le_refl _) rfl
  | dateTime => exact starts_cells (.instants hholds) rfl (Nat.le_refl _) rfl
  | nominal =>
    exact starts_cells (.categories .nil hholds) rfl (roomLimit_le_sizeLimit_index _) rfl
  | text => exact starts_objects (.inl rfl)
  | textSet => exact starts_objects (.inr (.inl rfl))
  | custom => exact starts_objects (.inr (.inr rfl))

/-! ### Writing one value -/

theorem accepts_of_interned {indices : List Nat} {dictionary : Dictionary}
    (h : Column.Interned values indices dictionary) (hlength : values.length ≤ rowLimit) :
    ∀ index ∈ indices, Tracked.Accepts index := by
  intro index hindex
  refine Tracked.accepts_index (IndexFormat.fits_iff.mpr ?_)
  exact Nat.le_trans (h.le_maxIndex index hindex) (Nat.le_trans h.size_le hlength)

/-- A dictionary entered from so few values has a format. -/
theorem exists_format {indices : List Nat} {dictionary : Dictionary}
    (h : Column.Interned values indices dictionary) (hlength : values.length ≤ rowLimit) :
    ∃ format, IndexFormat.ofDictionarySize dictionary.size = .ok format ∧
      format.fits dictionary.maxIndex := by
  have hfits : IndexFormat.int32.fits dictionary.maxIndex :=
    IndexFormat.fits_iff.mpr (Nat.le_trans h.size_le hlength)
  obtain ⟨format, hformat, hindex⟩ := IndexFormat.exists_narrowest? hfits
  refine ⟨format, ?_, hindex⟩
  have hsize : IndexFormat.ofDictionarySize? dictionary.size = some format := hformat
  rw [IndexFormat.ofDictionarySize, hsize]

theorem push_eq_of_accepts (builder : ColumnBuilder) {value : Value}
    (h : builder.type.accepts value) :
    builder.push value =
      match builder with
      | numbers type cells => (cells.push (numberFor type value) 8).within (numbers type)
      | times cells => (cells.push (Column.nanosOf value) 8).within times
      | instants highPrecision cells => pushInstant highPrecision cells (Column.instantOf value)
      | categories dictionary cells => pushCategory dictionary cells value
      | objects type values => .done () (objects type (values.push value)) := by
  unfold push
  rw [if_pos h]
  cases builder <;> rfl

/-- A value of another type is refused, and the builder stays as it is. -/
theorem push_of_not_accepts (builder : ColumnBuilder) {value : Value}
    (h : ¬builder.type.accepts value) :
    ∃ reason, builder.push value = .refused (.invalidArgument "value" reason) builder := by
  unfold push
  rw [if_neg h]
  exact ⟨_, rfl⟩

/-- Without room for the expected rows, the first value may already fail to be written. -/
theorem push_real_of_no_room {value : Value} (haccepts : ColumnType.real.accepts value)
    (hrows : options.checkRows = 1)
    (hpays : (⟨1, 1⟩ : Density).sparsePaysOff 8 options.minSparsity = false)
    (hroom : Word.elements 8 < options.expected) :
    ∃ start next, ofType .real options = .ok start ∧
      start.push value = .refused .tooLarge next := by
  obtain ⟨next, hpush⟩ := Accumulator.push_of_no_room
    (Tracked.accepts_number (numberFor .real value)) hrows hpays hroom
  refine ⟨.numbers .real ⟨options, 0, .dense Tracked.emptyBuffer⟩, .numbers .real next, ?_, ?_⟩
  · simp only [ofType, Accumulator.ofOptions_of_one_row hrows]
    rfl
  · rw [push_eq_of_accepts (.numbers .real ⟨options, 0, .dense Tracked.emptyBuffer⟩) haccepts]
    exact congrArg (Attempt.within (numbers .real)) hpush

/-- A value that the type accepts is recorded after those before, if there is a row left for it. The
push can then only fail for want of room. Before the storage is inspected it stays dense. -/
theorem push_cases (h : builder.Holds options values type) (hlength : values.length < rowLimit)
    {value : Value} (haccepts : type.accepts value) :
    ∃ next : ColumnBuilder, next.Holds options (values ++ [value]) type ∧
      (builder.push value).LeadsTo next LacksRoom ∧
      (builder.state = .dense → values.length + 1 < max options.checkRows 1 →
        next.state = .dense) := by
  rw [push_eq_of_accepts builder (h.type_eq ▸ haccepts)]
  have hcells {C : Type} (cell : Value → C) : (values.map cell).length = values.length :=
    List.length_map _
  cases h with
  | @numbers type cells htype hholds =>
    obtain ⟨next, hnext, hpush, hdense⟩ := Accumulator.push_cases Tracked.stores_number hholds
      (fun cell (_ : cell ∈ _ ++ [numberFor type value]) ↦ trivial) (by rwa [hcells]) 8
    rw [hcells] at hdense
    refine ⟨.numbers type next, .numbers htype ?_, hpush.within (numbers type) id, hdense⟩
    rw [List.map_append]
    exact hnext
  | times hholds =>
    obtain ⟨next, hnext, hpush, hdense⟩ := Accumulator.push_cases Tracked.stores_time hholds
      (fun cell (_ : cell ∈ _ ++ [Column.nanosOf value]) ↦ trivial) (by rwa [hcells]) 8
    rw [hcells] at hdense
    refine ⟨.times next, .times ?_, hpush.within times id, hdense⟩
    rw [List.map_append]
    exact hnext
  | @instants cells hholds =>
    obtain ⟨highPrecision, hhigh⟩ : ∃ highPrecision,
      ((values.map Column.instantOf).any (InstantStore.nanosOf · != 0) ||
        InstantStore.nanosOf (Column.instantOf value) != 0) = highPrecision := ⟨_, rfl⟩
    obtain ⟨next, hnext, hpush, hdense⟩ := Accumulator.push_cases Tracked.stores_instant hholds
      (fun cell (_ : cell ∈ _ ++ [Column.instantOf value]) ↦ trivial) (by rwa [hcells])
      (instantBytes highPrecision)
    rw [hcells] at hdense
    have hall : ((values ++ [value]).map Column.instantOf).any (InstantStore.nanosOf · != 0) =
        highPrecision := by
      rw [← hhigh, List.map_append, List.any_append]
      simp
    refine ⟨.instants highPrecision next, ?_, ?_, hdense⟩
    · rw [← hall]
      refine .instants ?_
      rw [List.map_append]
      exact hnext
    · simp only [pushInstant, hhigh]
      exact hpush.within (instants highPrecision) id
  | @categories indices dictionary cells hinterned hholds =>
    obtain ⟨index, grown, hindex, hgrown⟩ := hinterned.exists_append value hlength
    have hlength' : (values ++ [value]).length ≤ rowLimit := by
      rw [List.length_append, List.length_singleton]
      exact hlength
    obtain ⟨format, hformat, -⟩ := exists_format hgrown hlength'
    have hindices : indices.length < rowLimit := by rwa [hinterned.length_eq]
    have hstorable := fun index hindex ↦
      Tracked.stores_index.of_accepts (accepts_of_interned hgrown hlength' index hindex)
    obtain ⟨next, hnext, hpush, hdense⟩ :=
      Accumulator.push_cases Tracked.stores_index hholds hstorable hindices format.valueBytes
    rw [hinterned.length_eq] at hdense
    refine ⟨.categories grown next, .categories hgrown hnext, ?_, hdense⟩
    simp only [pushCategory, hindex, hformat]
    exact hpush.within (categories grown) fun hroom ↦ ⟨format, hformat, hroom⟩
  | objects htype =>
    refine ⟨.objects type (values ++ [value]).toArray, .objects htype, .inl ?_, fun _ _ ↦ rfl⟩
    simp

/-! ### Writing many values -/

/-- Pushing values one by one, the ones that the type accepts are recorded. -/
theorem Holds.pushAll (h : builder.Holds options values type) (rest : List Value)
    (hlength : (values ++ rest).length ≤ rowLimit) :
    (builder.pushAll rest).Holds options (values ++ rest.filter type.accepts) type := by
  induction rest generalizing builder values with
  | nil =>
    rw [List.filter_nil, List.append_nil]
    exact h
  | cons value rest ih =>
    rw [List.length_append, List.length_cons] at hlength
    rw [pushAll_cons]
    by_cases haccepts : type.accepts value
    · obtain ⟨next, hnext, hpush, -⟩ := push_cases h (by omega) haccepts
      rw [hpush.state_eq, List.filter_cons_of_pos haccepts, List.append_cons]
      exact ih hnext (by simp; omega)
    · obtain ⟨reason, hpush⟩ := push_of_not_accepts builder (h.type_eq ▸ haccepts)
      rw [hpush, List.filter_cons_of_neg haccepts]
      exact ih h (by simp; omega)

/-- No push of an accepted value fails, unless room is lacking. -/
theorem Holds.foldlM_push (h : builder.Holds options values type) {rest : List Value}
    (hroom : ¬builder.RunsShort rest) (hlength : (values ++ rest).length ≤ rowLimit)
    (haccepts : ∀ value ∈ rest, type.accepts value) :
    rest.foldlM (fun builder value ↦ (push builder value).reached) builder =
      .ok (builder.pushAll rest) := by
  induction rest generalizing builder values with
  | nil => rfl
  | cons value rest ih =>
    obtain ⟨hvalue, hrest⟩ := List.forall_mem_cons.mp haccepts
    rw [List.length_append, List.length_cons] at hlength
    rw [List.foldlM_cons, pushAll_cons]
    obtain ⟨next, hnext, hpush | ⟨hpush, hlacks⟩, -⟩ := push_cases h (by omega) hvalue
    · rw [hpush]
      refine ih hnext (fun hshort ↦ hroom (.later ?_)) (by simp; omega) hrest
      rw [hpush]
      exact hshort
    · exact absurd (.here hpush hlacks) hroom

/-- Where room is lacking, pushing accepted values fails for this reason. -/
theorem Holds.foldlM_push_of_runsShort (h : builder.Holds options values type) {rest : List Value}
    (hshort : builder.RunsShort rest) (hlength : (values ++ rest).length ≤ rowLimit)
    (haccepts : ∀ value ∈ rest, type.accepts value) :
    rest.foldlM (fun builder value ↦ (push builder value).reached) builder = .error .tooLarge := by
  induction rest generalizing builder values with
  | nil => contradiction
  | cons value rest ih =>
    obtain ⟨hvalue, hrest⟩ := List.forall_mem_cons.mp haccepts
    rw [List.length_append, List.length_cons] at hlength
    rw [List.foldlM_cons]
    obtain ⟨next, hnext, hpush | ⟨hpush, hlacks⟩, -⟩ := push_cases h (by omega) hvalue
    · rw [hpush]
      cases hshort with
      | here hrefused hroom =>
        rw [hpush] at hrefused
        cases hrefused
      | later hlater =>
        rw [hpush] at hlater
        exact ih hnext hlater (by simp; omega) hrest
    · rw [hpush]
      rfl

/-- Where a run of pushes ends for want of room, more values were recorded, and the storage was
dense until it was inspected. -/
theorem Holds.exists_lacksRoom (h : builder.Holds options values type) {rest : List Value}
    (hshort : builder.RunsShort rest) (hlength : (values ++ rest).length ≤ rowLimit) :
    ∃ (next : ColumnBuilder) (written : List Value), next.Holds options written type ∧
      next.LacksRoom ∧
      values.length < written.length ∧ written.length ≤ (values ++ rest).length ∧
      (builder.state = .dense → written.length < max options.checkRows 1 →
        next.state = .dense) := by
  induction rest generalizing builder values with
  | nil => contradiction
  | cons value rest ih =>
    rw [List.length_append, List.length_cons] at hlength ⊢
    by_cases haccepts : type.accepts value
    · obtain ⟨next, hnext, hpush, hdense⟩ := push_cases h (by omega) haccepts
      have hmore : (values ++ [value]).length = values.length + 1 := by simp
      cases hshort with
      | here hrefused hlacks =>
        rw [← hpush.state_eq, hrefused] at hnext hdense
        exact ⟨_, _, hnext, hlacks, by omega, by omega, fun hstate hlt ↦
          hdense hstate (hmore ▸ hlt)⟩
      | later hlater =>
        rw [hpush.state_eq] at hlater
        obtain ⟨last, written, hlast, hlacks, hlt, hle, hstate⟩ :=
          ih hnext hlater (by simp; omega)
        rw [List.length_append] at hle
        exact ⟨last, written, hlast, hlacks, by omega, by omega, fun hfirst hcheck ↦
          hstate (hdense hfirst (by omega)) hcheck⟩
    · obtain ⟨reason, hpush⟩ := push_of_not_accepts builder (h.type_eq ▸ haccepts)
      cases hshort with
      | here hrefused hlacks =>
        rw [hpush] at hrefused
        cases hrefused
      | later hlater =>
        rw [hpush] at hlater
        obtain ⟨last, written, hlast, hlacks, hlt, hle, hstate⟩ := ih h hlater (by simp; omega)
        rw [List.length_append] at hle
        exact ⟨last, written, hlast, hlacks, hlt, by omega, hstate⟩

/-- Where writing does not halt there is a builder to begin with. -/
theorem exists_ofType (hroom : ¬Halts type options values) :
    ∃ start, ofType type options = .ok start ∧ start.Holds options [] type := by
  have hstarts := starts_ofType type options
  cases hstart : ofType type options with
  | error fault =>
    rw [hstart] at hstarts
    cases hstarts with
    | lacksRoom hlacks => exact absurd (.start hstart hlacks) hroom
  | ok start =>
    rw [hstart] at hstarts
    cases hstarts with
    | made hholds hstate => exact ⟨start, rfl, hholds⟩

/-- Values that the type accepts are all written, unless that halts for want of room. -/
theorem exists_write (hroom : ¬Halts type options values) (hlength : values.length ≤ rowLimit)
    (haccepts : ∀ value ∈ values, type.accepts value) :
    ∃ builder, write type options values = .ok builder ∧ builder.Holds options values type := by
  obtain ⟨start, hstart, hholds⟩ := exists_ofType hroom
  have hrun := hholds.foldlM_push (fun hshort ↦ hroom (.push hstart hshort)) hlength haccepts
  have hlast := hholds.pushAll values hlength
  rw [List.filter_eq_self.mpr haccepts] at hlast
  refine ⟨start.pushAll values, ?_, hlast⟩
  unfold write
  rw [hstart, Outcome.ok_bind, Attempt.reached_runAll]
  exact hrun

theorem Halts.write_eq (h : Halts type options values) (hlength : values.length ≤ rowLimit)
    (haccepts : ∀ value ∈ values, type.accepts value) :
    write type options values = .error .tooLarge := by
  unfold write
  cases h with
  | start hstart hroom =>
    rw [hstart]
    rfl
  | push hstart hshort =>
    have hstarts := starts_ofType type options
    rw [hstart] at hstarts
    cases hstarts with
    | made hholds hstate =>
      rw [hstart, Outcome.ok_bind, Attempt.reached_runAll]
      exact hholds.foldlM_push_of_runsShort hshort hlength haccepts

/-- Writing halts at the start, or where a builder of some of the values lacks room. -/
theorem Halts.cases (h : Halts type options values) (hlength : values.length ≤ rowLimit) :
    type.roomLimit < type.initialRoom options ∨
      ∃ (next : ColumnBuilder) (written : List Value), next.Holds options written type ∧
      next.LacksRoom ∧
        written.length ≤ values.length ∧
        (written.length < max options.checkRows 1 → next.state = .dense) := by
  cases h with
  | start hstart hroom => exact .inl hroom
  | @push start hstart hshort =>
    have hstarts := starts_ofType type options
    rw [hstart] at hstarts
    cases hstarts with
    | made hholds hstate =>
      obtain ⟨next, written, hnext, hlacks, -, hle, hdense⟩ :=
        hholds.exists_lacksRoom hshort hlength
      exact .inr ⟨next, written, hnext, hlacks, hle, hdense hstate⟩

/-- Writing halts only when more rows are expected than storages of the type have room for. -/
theorem Halts.roomLimit_lt (h : Halts type options values) (hlength : values.length ≤ rowLimit) :
    type.roomLimit < options.expected := by
  rcases h.cases hlength with hroom | ⟨next, written, hnext, hlacks, -, -⟩
  · exact Nat.lt_of_lt_of_le hroom (type.initialRoom_le options)
  · exact hnext.roomLimit_lt hlacks

/-- Whatever is expected, writing does not halt before the inspection. -/
theorem not_halts_of_lt_check (hlength : values.length ≤ rowLimit)
    (hcheck : values.length < max options.checkRows 1)
    (hroom : type.initialRoom options ≤ type.roomLimit) : ¬Halts type options values := by
  intro h
  rcases h.cases hlength with hlt | ⟨next, written, hnext, hlacks, hle, hdense⟩
  · exact absurd hroom (Nat.not_le.mpr hlt)
  · have hlt := Nat.lt_of_le_of_lt hle hcheck
    exact absurd (hnext.length_eq hlacks (hdense hlt)) (Nat.ne_of_lt hlt)

end ColumnBuilder

end Columnar
