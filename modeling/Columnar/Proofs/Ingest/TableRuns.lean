import Columnar.Proofs.Ingest.Slots

/-!
# Runs of a table builder

A run is any sequence of calls, and its log says which calls were made and which of them succeeded.
The log alone tells what was written: how many rows were started and, for every column, which value
was set last in each row. `TableBuilder.Writing` ties a builder to its log until the table is
created, and every call keeps it (`Reached.logged`), unless a column lacks room for the expected
rows (`TableBuilder.RunsShort`). So each column of the table is the one that a column builder of its
own makes of these values.
-/

set_option autoImplicit false
set_option relaxedAutoImplicit false

namespace Columnar

inductive TableCall where
  | moveNext
  | set (column : Nat) (value : Value)
  | create (fresh : Token)

/-- A call that was made, and whether it succeeded. -/
structure TableEvent where
  call : TableCall
  succeeded : Bool

/-! ### What a log tells -/

/-- The calls made so far, the latest first. -/
abbrev TableLog := List TableEvent

namespace TableLog

def created : TableLog → Bool
  | [] => false
  | ⟨.create _, true⟩ :: _ => true
  | _ :: earlier => created earlier

/-- The number of rows started. -/
def started : TableLog → Nat
  | [] => 0
  | ⟨.moveNext, true⟩ :: earlier => started earlier + 1
  | _ :: earlier => started earlier

/-- The values of a column, the latest row first: in each row the one that was set last, or
missing. -/
def column (place : Nat) : TableLog → List Value
  | [] => []
  | ⟨.moveNext, true⟩ :: earlier => .missing :: column place earlier
  | ⟨.set other value, true⟩ :: earlier =>
    if other = place then value :: (column place earlier).tail else column place earlier
  | _ :: earlier => column place earlier

/-- Nothing may be called after the table was created, and no value be set before the first row. -/
def Forbids (log : TableLog) (call : TableCall) : Prop :=
  log.created = true ∨ (log.started = 0 ∧ ∃ place value, call = .set place value)

theorem column_set (place other : Nat) (value : Value) (log : TableLog) :
    column place (⟨.set other value, true⟩ :: log) =
      if other = place then value :: (column place log).tail else column place log := rfl

/-- A call that failed tells nothing. -/
theorem failed (call : TableCall) (log : TableLog) :
    created (⟨call, false⟩ :: log) = created log ∧ started (⟨call, false⟩ :: log) = started log ∧
      ∀ place, column place (⟨call, false⟩ :: log) = column place log := by
  cases call <;> exact ⟨rfl, rfl, fun _ ↦ rfl⟩

end TableLog

namespace TableBuilder

/-! ### Runs -/

def call (builder : TableBuilder) : TableCall → Attempt TableBuilder (Option Table)
  | .moveNext => builder.moveNext.mapAnswer fun _ ↦ none
  | .set column value => (builder.set column value).mapAnswer fun _ ↦ none
  | .create fresh => (builder.create fresh).mapAnswer some

theorem call_moveNext (builder : TableBuilder) :
    builder.call .moveNext = builder.moveNext.mapAnswer fun _ ↦ none := rfl

theorem call_set (builder : TableBuilder) (column : Nat) (value : Value) :
    builder.call (.set column value) = (builder.set column value).mapAnswer fun _ ↦ none := rfl

theorem call_create (builder : TableBuilder) (fresh : Token) :
    builder.call (.create fresh) = (builder.create fresh).mapAnswer some := rfl

/-- The builder after one more call, and the log with this call. -/
def logged (reached : TableBuilder × TableLog) (call : TableCall) : TableBuilder × TableLog :=
  let attempt := reached.1.call call
  (attempt.state, ⟨call, attempt.outcome.isOk⟩ :: reached.2)

def run (start : TableBuilder) (calls : List TableCall) : TableBuilder × TableLog :=
  calls.foldl logged (start, [])

theorem run_append_singleton (start : TableBuilder) (calls : List TableCall) (call : TableCall) :
    start.run (calls ++ [call]) = logged (start.run calls) call := by
  unfold run
  rw [List.foldl_append, List.foldl_cons, List.foldl_nil]

theorem run_of_done {start reached next : TableBuilder} {calls : List TableCall} {call : TableCall}
    {log : TableLog} {answer : Option Table} (hrun : start.run calls = (reached, log))
    (hcall : reached.call call = .done answer next) :
    start.run (calls ++ [call]) = (next, ⟨call, true⟩ :: log) := by
  rw [run_append_singleton, hrun, logged, hcall]
  rfl

theorem run_of_refused {start reached next : TableBuilder} {calls : List TableCall}
    {call : TableCall} {log : TableLog} {fault : Fault} (hrun : start.run calls = (reached, log))
    (hcall : reached.call call = .refused fault next) :
    start.run (calls ++ [call]) = (next, ⟨call, false⟩ :: log) := by
  rw [run_append_singleton, hrun, logged, hcall]
  rfl

/-- The log does not matter to the builder. -/
theorem foldl_logged_fst (start : TableBuilder) (calls : List TableCall) (log : TableLog) :
    (calls.foldl logged (start, log)).1 = (start.run calls).1 := by
  have hany (start : TableBuilder) (first second : TableLog) :
      (calls.foldl logged (start, first)).1 = (calls.foldl logged (start, second)).1 := by
    induction calls generalizing start first second with
    | nil => rfl
    | cons call rest ih => exact ih _ _ _
  exact hany start log []

/-- The builder of some column lacks room for the expected rows. -/
def LacksRoom (builder : TableBuilder) : Prop := ∃ slot ∈ builder.slots, slot.builder.LacksRoom

/-- In a run of these calls, a call fails because a column lacks room. -/
inductive RunsShort : TableBuilder → List TableCall → Prop
  | here {builder next : TableBuilder} {call : TableCall} {rest : List TableCall}
    (hcall : builder.call call = .refused .tooLarge next) (hroom : next.LacksRoom) :
    RunsShort builder (call :: rest)
  | later {builder : TableBuilder} {call : TableCall} {rest : List TableCall}
    (h : RunsShort (builder.call call).state rest) : RunsShort builder (call :: rest)

theorem runsShort_append {start : TableBuilder} {first second : List TableCall} :
    start.RunsShort (first ++ second) ↔
      start.RunsShort first ∨ (start.run first).1.RunsShort second := by
  induction first generalizing start with
  | nil =>
    constructor
    · exact .inr
    · rintro (hshort | hshort)
      · contradiction
      · exact hshort
  | cons call rest ih =>
    have hrun : (start.run (call :: rest)).1 = ((start.call call).state.run rest).1 :=
      foldl_logged_fst _ rest _
    rw [List.cons_append, hrun]
    constructor
    · intro hshort
      cases hshort with
      | here hcall hroom => exact .inl (.here hcall hroom)
      | later hlater => exact (ih.mp hlater).imp_left .later
    · rintro (hshort | hshort)
      · cases hshort with
        | here hcall hroom => exact .here hcall hroom
        | later hlater => exact .later (ih.mpr (.inl hlater))
      · exact .later (ih.mpr (.inr hshort))

end TableBuilder

/-- The table of what was written: each column is the one that a builder of its own makes of the
values in the rows. -/
structure Table.Collects (table : Table) (labels : List String) (types : List ColumnType)
    (options : IngestOptions) (log : TableLog) (fresh : Token) : Prop where
  labels_eq : table.labels = labels
  width_eq : table.columns.length = types.length
  height_eq : table.height = log.started
  column_eq : ∀ (place : Nat) (type : ColumnType), types[place]? = some type →
    ∃ builder column, ColumnBuilder.write type options (log.column place).reverse = .ok builder ∧
      builder.finish options.finalLayout (fresh + place) = .ok column ∧
      table.columns[place]? = some column ∧ column.size = log.started

namespace TableBuilder

/-- A builder that has not created its table, after the calls of this log. -/
structure Writing (builder : TableBuilder) (labels : List String) (types : List ColumnType)
    (options : IngestOptions) (log : TableLog) : Prop where
  labels_eq : builder.labels = labels
  finalLayout_eq : builder.finalLayout = options.finalLayout
  not_frozen : builder.frozen = false
  not_created : log.created = false
  rows_eq : builder.rows = log.started
  rows_le : log.started ≤ rowLimit
  width_eq : builder.slots.length = types.length
  height_eq : ∀ place, (log.column place).length = log.started
  slots : ∀ (place : Nat) (type : ColumnType) (slot : Slot), types[place]? = some type →
    builder.slots[place]? = some slot → slot.Holds options type (log.column place)

/-- A builder reached by the calls of this log. -/
inductive Reached (labels : List String) (types : List ColumnType) (options : IngestOptions)
    (builder : TableBuilder) (log : TableLog) : Prop
  | writing (h : builder.Writing labels types options log)
  | created (hfrozen : builder.frozen = true) (hcreated : log.created = true)

variable {labels : List String} {types : List ColumnType} {options : IngestOptions}
  {builder : TableBuilder} {log : TableLog}

/-- Every column has a slot with its values. -/
theorem Writing.exists_slot (h : builder.Writing labels types options log) {place : Nat}
    {type : ColumnType} (htype : types[place]? = some type) :
    ∃ slot, builder.slots[place]? = some slot ∧ slot.Holds options type (log.column place) := by
  have hlt := (List.getElem?_eq_some_iff.mp htype).1
  rw [← h.width_eq] at hlt
  have hslot := List.getElem?_eq_getElem hlt
  exact ⟨_, hslot, h.slots place type _ htype hslot⟩

/-- Only accepted values were set. -/
theorem Writing.accepts (h : builder.Writing labels types options log) {place : Nat}
    {type : ColumnType} (htype : types[place]? = some type) :
    ∀ value ∈ log.column place, type.accepts value := by
  obtain ⟨slot, -, hholds⟩ := h.exists_slot htype
  exact hholds.accepts

theorem Writing.exists_type (h : builder.Writing labels types options log) {place : Nat}
    {slot : Slot} (hslot : builder.slots[place]? = some slot) :
    ∃ type, types[place]? = some type := by
  have hlt := (List.getElem?_eq_some_iff.mp hslot).1
  rw [h.width_eq] at hlt
  exact ⟨_, List.getElem?_eq_getElem hlt⟩

/-! ### Committing a row -/

theorem commit_eq (builder : TableBuilder) :
    builder.commit =
      if builder.rows = 0 then .done () builder
      else (Slot.commitAll builder.slots).within fun slots ↦ { builder with slots } := rfl

/-- The values of a column, once there is a row. -/
theorem Writing.column_ne_nil (h : builder.Writing labels types options log)
    (hrows : builder.rows ≠ 0) (place : Nat) : log.column place ≠ [] := by
  rw [← List.length_pos_iff, h.height_eq place, ← h.rows_eq]
  exact Nat.pos_of_ne_zero hrows

/-- Handing over the staged value of a column fails only for want of room, and only when more rows
are expected than storages of its type have room for. -/
theorem Writing.push_cases (h : builder.Writing labels types options log)
    (hrows : builder.rows ≠ 0) {slot : Slot} (hslot : slot ∈ builder.slots) :
    ∃ next : ColumnBuilder, (slot.builder.push slot.staged).LeadsTo next ColumnBuilder.LacksRoom ∧
      (next.LacksRoom → ∃ type ∈ types, type.roomLimit < options.expected) := by
  obtain ⟨place, hplace⟩ := List.mem_iff_getElem?.mp hslot
  obtain ⟨type, htype⟩ := h.exists_type hplace
  obtain ⟨next, hnext, hpush⟩ := (h.slots place type slot htype hplace).push_cases
    (h.column_ne_nil hrows place) (h.height_eq place ▸ h.rows_le)
  exact ⟨next, hpush, fun hlacks ↦ ⟨type, List.mem_of_getElem? htype, hnext.roomLimit_lt hlacks⟩⟩

/-- What failed because a column lacks room for the rows that are expected. -/
structure FailsForRoom {A : Type} (types : List ColumnType) (options : IngestOptions)
    (attempt : Attempt TableBuilder A) : Prop where
  exists_refused : ∃ next : TableBuilder, attempt = .refused .tooLarge next ∧ next.LacksRoom
  exists_type : ∃ type ∈ types, type.roomLimit < options.expected

/-- Handing over the current row fails only for want of room. Otherwise every builder then has all
values of its column. -/
theorem Writing.commit_cases (h : builder.Writing labels types options log) :
    (∃ slots, builder.commit = .done () { builder with slots } ∧ slots.length = types.length ∧
      ∀ (place : Nat) (type : ColumnType) (slot : Slot), types[place]? = some type →
        slots[place]? = some slot →
          ColumnBuilder.write type options (log.column place).reverse = .ok slot.builder ∧
            slot.staged = .missing) ∨
      FailsForRoom types options builder.commit := by
  rw [commit_eq]
  by_cases hrows : builder.rows = 0
  · rw [if_pos hrows]
    refine .inl ⟨builder.slots, rfl, h.width_eq, ?_⟩
    intro place type slot htype hslot
    have hheight := h.height_eq place
    rw [← h.rows_eq, hrows] at hheight
    have hholds := h.slots place type slot htype hslot
    rw [List.eq_nil_of_length_eq_zero hheight] at hholds ⊢
    exact ⟨hholds.write_eq, hholds.staged_eq⟩
  · rw [if_neg hrows]
    have hpush (slot : Slot) (hslot : slot ∈ builder.slots) :
        ∃ next, (slot.builder.push slot.staged).LeadsTo next ColumnBuilder.LacksRoom := by
      obtain ⟨next, hnext, -⟩ := h.push_cases hrows hslot
      exact ⟨next, hnext⟩
    rcases Slot.commitAll_cases hpush with
      ⟨hcommit, hdone⟩ | ⟨slot, hslot, hlacks, failed, hfailed, hmem⟩
    · refine .inl ⟨builder.slots.map Slot.committed, by rw [hcommit]; rfl, ?_, ?_⟩
      · rw [List.length_map]
        exact h.width_eq
      · intro place type slot htype hslot
        rw [List.getElem?_map] at hslot
        obtain ⟨before, hbefore, rfl⟩ := Option.map_eq_some_iff.mp hslot
        exact ⟨(h.slots place type before htype hbefore).write_of_push (h.column_ne_nil hrows place)
          (hdone before (List.mem_of_getElem? hbefore)), rfl⟩
    · obtain ⟨next, hnext, hlimit⟩ := h.push_cases hrows hslot
      have hstate : slot.committed.builder = next := hnext.state_eq
      have hlt := hlimit (hstate ▸ hlacks)
      exact .inr ⟨⟨_, by rw [hfailed]; rfl, slot.committed, hmem, hlacks⟩, hlt⟩

/-! ### What a call does -/

/-- A row is started as long as the rows are not at their limit, unless room is lacking. -/
theorem Writing.moveNext (h : builder.Writing labels types options log) :
    (log.started < rowLimit →
      (∃ next, builder.moveNext = .done () next ∧
        next.Writing labels types options (⟨.moveNext, true⟩ :: log)) ∨
        FailsForRoom types options builder.moveNext) ∧
      (rowLimit ≤ log.started →
        builder.moveNext = .refused (.outOfBounds log.started rowLimit) builder) := by
  unfold TableBuilder.moveNext
  rw [h.not_frozen, h.rows_eq, if_neg Bool.false_ne_true]
  constructor
  · intro hlt
    rw [if_neg (Nat.not_le.mpr hlt)]
    rcases h.commit_cases with
      ⟨slots, hcommit, hlength, hslots⟩ | ⟨⟨next, hcommit, hlacks⟩, hlimit⟩
    · rw [hcommit]
      refine .inl ⟨_, rfl, h.labels_eq, h.finalLayout_eq, h.not_frozen, h.not_created, ?_, hlt,
        hlength, ?_, ?_⟩
      · exact congrArg (· + 1) h.rows_eq
      · intro place
        exact congrArg (· + 1) (h.height_eq place)
      · intro place type slot htype hslot
        obtain ⟨hwrite, hstaged⟩ := hslots place type slot htype hslot
        refine ⟨hwrite, hstaged, ?_⟩
        intro value hvalue
        rcases List.mem_cons.mp hvalue with rfl | hvalue
        · exact type.accepts_missing
        · exact h.accepts htype value hvalue
    · rw [hcommit]
      exact .inr ⟨⟨next, rfl, hlacks⟩, hlimit⟩
  · intro hle
    rw [if_pos hle]

theorem Writing.set_before_rows (h : builder.Writing labels types options log)
    (hrows : log.started = 0) (place : Nat) (value : Value) :
    builder.set place value =
      .refused (.illegalState "set called before the first move_next") builder := by
  unfold TableBuilder.set
  rw [h.not_frozen, h.rows_eq, if_neg Bool.false_ne_true, if_pos hrows]

/-- A value is staged when its column is there and takes it. -/
theorem Writing.set (h : builder.Writing labels types options log) (hrows : 0 < log.started)
    (place : Nat) (value : Value) :
    (∀ type, types[place]? = some type → type.accepts value →
      ∃ next, builder.set place value = .done () next ∧
        next.Writing labels types options (⟨.set place value, true⟩ :: log)) ∧
      (∀ type, types[place]? = some type → ¬type.accepts value →
        ∃ reason, builder.set place value = .refused (.invalidArgument "value" reason) builder) ∧
      (types[place]? = none →
        builder.set place value = .refused (.outOfBounds place types.length) builder) := by
  unfold TableBuilder.set
  rw [h.not_frozen, h.rows_eq, if_neg Bool.false_ne_true, if_neg (Nat.ne_of_gt hrows)]
  have hslot {type : ColumnType} (htype : types[place]? = some type) :
      ∃ slot, builder.slots[place]? = some slot ∧ slot.Holds options type (log.column place) ∧
        slot.builder.type = type := by
    obtain ⟨slot, hslot, hholds⟩ := h.exists_slot htype
    exact ⟨slot, hslot, hholds, (hholds.builder_holds (h.height_eq place ▸ h.rows_le)).type_eq⟩
  refine ⟨?_, ?_, ?_⟩
  · intro type htype haccepts
    obtain ⟨slot, hget, hholds, heq⟩ := hslot htype
    simp only [hget, heq, if_pos haccepts]
    refine ⟨_, rfl, h.labels_eq, h.finalLayout_eq, rfl, h.not_created, rfl, h.rows_le, ?_,
      ?_, ?_⟩
    · rw [List.length_set]
      exact h.width_eq
    · intro other
      have hheight := h.height_eq other
      rw [TableLog.column_set]
      split
      · rw [List.length_cons, List.length_tail, hheight]
        exact Nat.sub_add_cancel hrows
      · exact hheight
    · intro other otherType otherSlot hotherType hotherSlot
      have hlt := (List.getElem?_eq_some_iff.mp hget).1
      rw [TableLog.column_set]
      rw [List.getElem?_set] at hotherSlot
      by_cases hplace : place = other
      · subst hplace
        rw [if_pos rfl, if_pos hlt] at hotherSlot
        cases hotherSlot
        rw [if_pos rfl, Option.some.inj (hotherType.symm.trans htype)]
        exact hholds.stage haccepts
      · rw [if_neg hplace] at hotherSlot ⊢
        exact h.slots other otherType otherSlot hotherType hotherSlot
  · intro type htype haccepts
    obtain ⟨slot, hget, -, heq⟩ := hslot htype
    simp only [hget, heq, if_neg haccepts]
    exact ⟨_, rfl⟩
  · intro hnone
    have hget : builder.slots[place]? = none := by
      rw [List.getElem?_eq_none_iff, h.width_eq]
      exact List.getElem?_eq_none_iff.mp hnone
    simp only [hget, width, h.width_eq]

/-- A builder with the values of a column finishes to a column with all rows. -/
theorem Writing.exists_finish (h : builder.Writing labels types options log) {place : Nat}
    {type : ColumnType} {filled : ColumnBuilder} (htype : types[place]? = some type)
    (hwrite : ColumnBuilder.write type options (log.column place).reverse = .ok filled)
    (token : Token) :
    ∃ column, filled.finish options.finalLayout token = .ok column ∧
      column.size = log.started := by
  have hheight : (log.column place).reverse.length = log.started := by
    rw [List.length_reverse, h.height_eq]
  have hvalues : ∀ value ∈ (log.column place).reverse, type.accepts value := by
    intro value hvalue
    exact h.accepts htype value (List.mem_reverse.mp hvalue)
  have hholds := ColumnBuilder.holds_of_write hwrite (hheight ▸ h.rows_le) hvalues
  obtain ⟨data, hdata, hwritten⟩ := ColumnBuilder.exists_finish hholds (hheight ▸ h.rows_le)
    hvalues options.finalLayout token
  exact ⟨⟨type, data⟩, hdata, hwritten.size.trans hheight⟩

/-- The table is created, and the builder is frozen, unless room is lacking. -/
theorem Writing.create (h : builder.Writing labels types options log) (fresh : Token) :
    (∃ table next, builder.create fresh = .done table next ∧ next.frozen = true ∧
      table.Collects labels types options log fresh) ∨
      FailsForRoom types options (builder.create fresh) := by
  unfold TableBuilder.create
  rw [h.not_frozen, if_neg Bool.false_ne_true]
  rcases h.commit_cases with ⟨slots, hcommit, hlength, hslots⟩ | ⟨⟨next, hcommit, hlacks⟩, hlimit⟩
  rotate_left
  · rw [hcommit]
    exact .inr ⟨⟨next, rfl, hlacks⟩, hlimit⟩
  rw [hcommit]
  have hfinish {place : Nat} {type : ColumnType} {slot : Slot} (htype : types[place]? = some type)
      (hslot : slots[place]? = some slot) :=
    h.exists_finish htype (hslots place type slot htype hslot).1 (fresh + place)
  obtain ⟨columns, hcolumns, hwidth, hcolumn⟩ :=
    @Slot.exists_finishAll options.finalLayout slots fresh fun place slot hslot ↦ by
      have hlt := (List.getElem?_eq_some_iff.mp hslot).1
      rw [hlength] at hlt
      obtain ⟨column, hdata, -⟩ := hfinish (List.getElem?_eq_getElem hlt) hslot
      exact ⟨column, hdata⟩
  refine .inl ⟨⟨builder.labels, columns, builder.rows⟩,
    { builder with labels := [], slots := [], frozen := true }, ?_, rfl, h.labels_eq,
    hwidth.trans hlength, h.rows_eq, fun place type htype ↦ ?_⟩
  · simp only [h.finalLayout_eq, hcolumns]
  · have hlt := (List.getElem?_eq_some_iff.mp htype).1
    rw [← hlength] at hlt
    have hslot := List.getElem?_eq_getElem hlt
    obtain ⟨column, hdata, hsize⟩ := hfinish htype hslot
    obtain ⟨column', hdata', hplace⟩ := hcolumn place _ hslot
    rw [hdata] at hdata'
    cases hdata'
    exact ⟨_, column, (hslots place type _ htype hslot).1, hdata, hplace, hsize⟩

/-- A new builder for columns of these types. -/
theorem exists_ofTypes (hlabels : types.length = labels.length)
    (hroom : ∀ type ∈ types, ¬ColumnBuilder.Halts type options []) :
    ∃ start, ofTypes labels types options = .ok start ∧ start.Writing labels types options [] := by
  obtain ⟨builders, hbuilders, hlength, hplaces⟩ :=
    @Outcome.exists_mapM _ _ (ColumnBuilder.ofType · options) types fun type htype ↦ by
      obtain ⟨builder, hbuilder, -⟩ := ColumnBuilder.exists_ofType (hroom type htype)
      exact ⟨builder, hbuilder⟩
  refine ⟨⟨labels, builders.map fun builder ↦ { builder }, 0, options.finalLayout, false⟩, ?_, rfl,
    rfl, rfl, rfl, rfl, Nat.zero_le _, ?_, fun _ ↦ rfl, ?_⟩
  · unfold ofTypes Fault.require
    rw [if_pos (decide_eq_true hlabels), Outcome.ok_bind, hbuilders, Outcome.ok_bind]
    rfl
  · rw [List.length_map]
    exact hlength
  · intro place type slot htype hslot
    rw [List.getElem?_map] at hslot
    obtain ⟨builder, hbuilder, rfl⟩ := Option.map_eq_some_iff.mp hslot
    refine ⟨?_, rfl, nofun⟩
    unfold ColumnBuilder.write
    rw [hplaces place type builder htype hbuilder]
    rfl

/-! ### Runs -/

theorem call_of_frozen (hfrozen : builder.frozen = true) (call : TableCall) :
    builder.call call = .refused alreadyCreated builder := by
  cases call <;> simp [TableBuilder.call, TableBuilder.moveNext, TableBuilder.set,
    TableBuilder.create, hfrozen, Attempt.mapAnswer]

/-- What a builder with this log may do with a call: the call succeeds, is refused and changes
nothing, or fails for want of room. -/
inductive Calls (labels : List String) (types : List ColumnType) (options : IngestOptions)
    (builder : TableBuilder) (log : TableLog) (call : TableCall) : Prop
  | succeeds {answer : Option Table} {next : TableBuilder} (hallowed : ¬log.Forbids call)
    (hcall : builder.call call = .done answer next)
    (hnext : Reached labels types options next (⟨call, true⟩ :: log)) :
    Calls labels types options builder log call
  | refuses {fault : Fault} (hcall : builder.call call = .refused fault builder)
    (hillegal : (∃ reason, fault = .illegalState reason) ↔ log.Forbids call)
    (hfault : fault ≠ .tooLarge) : Calls labels types options builder log call
  | fails (hallowed : ¬log.Forbids call) (hroom : FailsForRoom types options (builder.call call)) :
    Calls labels types options builder log call

theorem FailsForRoom.mapAnswer {A B : Type} {attempt : Attempt TableBuilder A}
    (h : FailsForRoom types options attempt) (f : A → B) :
    FailsForRoom types options (attempt.mapAnswer f) := by
  obtain ⟨⟨next, rfl, hlacks⟩, hlimit⟩ := h
  exact ⟨⟨next, rfl, hlacks⟩, hlimit⟩

theorem Writing.calls (h : builder.Writing labels types options log) (call : TableCall) :
    Calls labels types options builder log call := by
  have hcreated := h.not_created
  cases call with
  | moveNext =>
    obtain ⟨hmove, hlimit⟩ := h.moveNext
    have hallowed : ¬log.Forbids .moveNext := by simp [TableLog.Forbids, hcreated]
    by_cases hlt : log.started < rowLimit
    · rcases hmove hlt with ⟨next, hnext, hwriting⟩ | hfails
      · exact .succeeds hallowed (by rw [call_moveNext, hnext]; rfl) (.writing hwriting)
      · exact .fails hallowed (hfails.mapAnswer _)
    · have hcall : builder.call .moveNext =
          .refused (.outOfBounds log.started rowLimit) builder := by
        rw [call_moveNext, hlimit (Nat.not_lt.mp hlt)]
        rfl
      exact .refuses hcall (by simp [hallowed]) nofun
  | set place value =>
    by_cases hrows : log.started = 0
    · have hcall : builder.call (.set place value) =
          .refused (.illegalState "set called before the first move_next") builder := by
        rw [call_set, h.set_before_rows hrows place value]
        rfl
      exact .refuses hcall (by simp [TableLog.Forbids, hrows]) nofun
    · have hallowed : ¬log.Forbids (.set place value) := by
        simp [TableLog.Forbids, hcreated, hrows]
      obtain ⟨hstaged, hrefused, houtside⟩ := h.set (Nat.pos_of_ne_zero hrows) place value
      cases htype : types[place]? with
      | none =>
        have hcall : builder.call (.set place value) =
            .refused (.outOfBounds place types.length) builder := by
          rw [call_set, houtside htype]
          rfl
        exact .refuses hcall (by simp [hallowed]) nofun
      | some type =>
        by_cases haccepts : type.accepts value
        · obtain ⟨next, hnext, hwriting⟩ := hstaged type htype haccepts
          exact .succeeds hallowed (by rw [call_set, hnext]; rfl) (.writing hwriting)
        · obtain ⟨reason, hreason⟩ := hrefused type htype haccepts
          have hcall : builder.call (.set place value) =
              .refused (.invalidArgument "value" reason) builder := by
            rw [call_set, hreason]
            rfl
          exact .refuses hcall (by simp [hallowed]) nofun
  | create fresh =>
    have hallowed : ¬log.Forbids (.create fresh) := by simp [TableLog.Forbids, hcreated]
    rcases h.create fresh with ⟨table, next, hcreate, hfrozen, -⟩ | hfails
    · exact .succeeds hallowed (by rw [call_create, hcreate]; rfl) (.created hfrozen rfl)
    · exact .fails hallowed (hfails.mapAnswer _)

theorem Reached.calls (h : Reached labels types options builder log) (call : TableCall) :
    Calls labels types options builder log call := by
  cases h with
  | created hfrozen hcreated =>
    exact .refuses (call_of_frozen hfrozen call) ⟨fun _ ↦ .inl hcreated, fun _ ↦ ⟨_, rfl⟩⟩ nofun
  | writing h => exact h.calls call

/-- A failed call leaves the builder as the log before it tells. -/
theorem Reached.failed (h : Reached labels types options builder log) (call : TableCall) :
    Reached labels types options builder (⟨call, false⟩ :: log) := by
  obtain ⟨hcreated, hstarted, hcolumn⟩ := TableLog.failed call log
  cases h with
  | created hfrozen h => exact .created hfrozen (hcreated.trans h)
  | writing h =>
    refine .writing ⟨h.labels_eq, h.finalLayout_eq, h.not_frozen, hcreated.trans h.not_created,
      h.rows_eq.trans hstarted.symm, hstarted ▸ h.rows_le, h.width_eq, ?_,
      ?_⟩
    · intro place
      rw [hcolumn, hstarted]
      exact h.height_eq place
    · intro place type slot htype hslot
      rw [hcolumn]
      exact h.slots place type slot htype hslot

/-- Every step of a run keeps to its log, unless room is lacking. -/
theorem Reached.logged (h : Reached labels types options builder log) {call : TableCall}
    (hroom : ¬FailsForRoom types options (builder.call call)) :
    Reached labels types options (TableBuilder.logged (builder, log) call).1
      (TableBuilder.logged (builder, log) call).2 := by
  unfold TableBuilder.logged
  cases h.calls call with
  | succeeds hallowed hcall hnext =>
    rw [hcall]
    exact hnext
  | refuses hcall hillegal hfault =>
    rw [hcall]
    exact h.failed call
  | fails hallowed hfails => exact absurd hfails hroom

/-- So does the run. -/
theorem Reached.foldl_logged (h : Reached labels types options builder log) {calls : List TableCall}
    (hroom : ¬builder.RunsShort calls) :
    Reached labels types options (calls.foldl TableBuilder.logged (builder, log)).1
      (calls.foldl TableBuilder.logged (builder, log)).2 := by
  induction calls generalizing builder log with
  | nil => exact h
  | cons call rest ih =>
    refine ih (h.logged ?_) fun hshort ↦ hroom (.later hshort)
    rintro ⟨⟨next, hcall, hlacks⟩, -⟩
    exact hroom (.here hcall hlacks)

/-- A run ends for want of room only when more rows are expected than storages have room for. -/
theorem Reached.exists_roomLimit_lt (h : Reached labels types options builder log)
    {calls : List TableCall} (hshort : builder.RunsShort calls) :
    ∃ type ∈ types, type.roomLimit < options.expected := by
  induction calls generalizing builder log with
  | nil => contradiction
  | cons call rest ih =>
    by_cases hfails : FailsForRoom types options (builder.call call)
    · exact hfails.exists_type
    · cases hshort with
      | here hcall hlacks =>
        cases h.calls call with
        | succeeds hallowed hdone hnext =>
          rw [hcall] at hdone
          cases hdone
        | refuses hrefused hillegal hfault =>
          rw [hcall] at hrefused
          cases hrefused
          exact absurd rfl hfault
        | fails hallowed hroom => exact absurd hroom hfails
      | later hlater => exact ih (h.logged hfails) hlater

/-- How a builder with this log answers a call. -/
structure Answers (labels : List String) (types : List ColumnType) (options : IngestOptions)
    (builder : TableBuilder) (log : TableLog) (call : TableCall) : Prop where
  illegal_iff : (∃ reason next, builder.call call = .refused (.illegalState reason) next) ↔
    log.Forbids call
  unchanged : ∀ fault next, builder.call call = .refused fault next → next = builder
  moves : call = .moveNext → log.created = false → log.started < rowLimit →
    ∃ next, builder.call call = .done none next
  stages : ∀ place value, call = .set place value → log.created = false → 0 < log.started →
    (∀ type, types[place]? = some type → type.accepts value →
      ∃ next, builder.call call = .done none next) ∧
    (∀ type, types[place]? = some type → ¬type.accepts value →
      ∃ reason, builder.call call = .refused (.invalidArgument "value" reason) builder) ∧
    (types.length ≤ place →
      builder.call call = .refused (.outOfBounds place types.length) builder)
  creates : ∀ fresh, call = .create fresh → log.created = false →
    ∃ table next, builder.call call = .done (some table) next ∧
      table.Collects labels types options log fresh

theorem Reached.answers (h : Reached labels types options builder log) {call : TableCall}
    (hroom : ¬FailsForRoom types options (builder.call call)) :
    builder.Answers labels types options log call := by
  have hopen (hcreated : log.created = false) : builder.Writing labels types options log := by
    cases h with
    | writing h => exact h
    | created _ h =>
      rw [hcreated] at h
      contradiction
  constructor
  case illegal_iff =>
    cases h.calls call with
    | succeeds hallowed hcall hnext => simp [hcall, hallowed]
    | refuses hcall hillegal hfault =>
      rw [← hillegal, hcall]
      simp
    | fails hallowed hfails => exact absurd hfails hroom
  case unchanged =>
    intro fault next hrefused
    cases h.calls call with
    | succeeds hallowed hcall hnext =>
      rw [hcall] at hrefused
      contradiction
    | refuses hcall hillegal hfault =>
      rw [hcall] at hrefused
      cases hrefused
      rfl
    | fails hallowed hfails => exact absurd hfails hroom
  case moves =>
    rintro rfl hcreated hlt
    rcases (hopen hcreated).moveNext.1 hlt with ⟨next, hnext, -⟩ | hfails
    · exact ⟨next, by rw [call_moveNext, hnext]; rfl⟩
    · exact absurd (hfails.mapAnswer _) hroom
  case stages =>
    rintro place value rfl hcreated hrows
    obtain ⟨hstaged, hrefused, houtside⟩ := (hopen hcreated).set hrows place value
    refine ⟨?_, ?_, ?_⟩
    · intro type htype haccepts
      obtain ⟨next, hnext, -⟩ := hstaged type htype haccepts
      exact ⟨next, by rw [call_set, hnext]; rfl⟩
    · intro type htype haccepts
      obtain ⟨reason, hreason⟩ := hrefused type htype haccepts
      exact ⟨reason, by rw [call_set, hreason]; rfl⟩
    · intro hle
      rw [call_set, houtside (List.getElem?_eq_none_iff.mpr hle)]
      rfl
  case creates =>
    rintro fresh rfl hcreated
    rcases (hopen hcreated).create fresh with ⟨table, next, hcreate, -, hcollects⟩ | hfails
    · exact ⟨table, next, by rw [call_create, hcreate]; rfl, hcollects⟩
    · exact absurd (hfails.mapAnswer _) hroom

/-- After any run, a call is illegal exactly when the table was created or a value is set before the
first row. Any other call succeeds unless a value is set outside the columns or its column does not
take it, or the rows are at their limit. A failed call changes nothing, and the table has the
columns that column builders of their own make of the values set last in each row. Only a run that
lacks room for the expected rows ends otherwise. -/
theorem call_after_run (hlabels : types.length = labels.length)
    (hroom : ∀ type ∈ types, ¬ColumnBuilder.Halts type options []) :
    ∃ start, ofTypes labels types options = .ok start ∧
      (∀ calls, start.RunsShort calls → ∃ type ∈ types, type.roomLimit < options.expected) ∧
      ∀ (calls : List TableCall) (call : TableCall) (reached : TableBuilder) (log : TableLog),
        start.run calls = (reached, log) → ¬start.RunsShort (calls ++ [call]) →
          reached.Answers labels types options log call := by
  obtain ⟨start, hstart, hwriting⟩ := @exists_ofTypes labels types options hlabels hroom
  have hreached : Reached labels types options start [] := .writing hwriting
  refine ⟨start, hstart, fun calls hshort ↦ hreached.exists_roomLimit_lt hshort, ?_⟩
  intro calls call reached log hrun hshort
  rw [runsShort_append, hrun] at hshort
  have hlast := hreached.foldl_logged fun hearlier ↦ hshort (.inl hearlier)
  rw [show calls.foldl TableBuilder.logged (start, []) = start.run calls from rfl, hrun] at hlast
  refine hlast.answers ?_
  rintro ⟨⟨next, hcall, hlacks⟩, -⟩
  exact hshort (.inr (.here hcall hlacks))

/-- Two rows. In the first a number is set, a text is refused in its place, and another number is
set over it; in the second nothing is set. -/
theorem call_after_run_two_rows :
    ∃ start reached table last builder column,
      ofTypes ["name", "size"] [.nominal, .real] { checkRows := 1, expectedRows := some 2 } =
        .ok start ∧
      start.run [.moveNext, .set 1 (.number ⟨0⟩), .set 1 (.text "ash"), .set 1 (.number ⟨1⟩),
        .moveNext] = (reached, [⟨.moveNext, true⟩, ⟨.set 1 (.number ⟨1⟩), true⟩,
          ⟨.set 1 (.text "ash"), false⟩, ⟨.set 1 (.number ⟨0⟩), true⟩, ⟨.moveNext, true⟩]) ∧
      reached.call (.create 1) = .done (some table) last ∧ table.height = 2 ∧
      ColumnBuilder.write .real { checkRows := 1, expectedRows := some 2 }
        [.number ⟨1⟩, .missing] = .ok builder ∧
      builder.finish .auto 2 = .ok column ∧ table.columns[1]? = some column := by
  let options : IngestOptions := { checkRows := 1, expectedRows := some 2 }
  have hroom : ¬∃ type ∈ [ColumnType.nominal, .real], type.roomLimit < options.expected := by
    decide
  obtain ⟨start, hstart, hlimit, hanswers⟩ :=
    @call_after_run ["name", "size"] [.nominal, .real] options rfl fun type htype hhalts ↦
      hroom ⟨type, htype, hhalts.roomLimit_lt (by decide)⟩
  have hnever (calls : List TableCall) : ¬start.RunsShort calls := fun hshort ↦
    hroom (hlimit calls hshort)
  have hanswer {calls : List TableCall} {call : TableCall} {reached : TableBuilder} {log : TableLog}
      (hrun : start.run calls = (reached, log)) :=
    hanswers calls call reached log hrun (hnever _)
  have hrun : start.run [] = (start, []) := rfl
  obtain ⟨first, hfirst⟩ := (hanswer hrun).moves rfl rfl (by decide)
  have hrun := run_of_done hrun hfirst
  obtain ⟨zero, hzero⟩ :=
    ((hanswer hrun).stages 1 (.number ⟨0⟩) rfl rfl (by decide)).1 .real rfl rfl
  have hrun := run_of_done hrun hzero
  obtain ⟨reason, hrefused⟩ :=
    ((hanswer hrun).stages 1 (.text "ash") rfl rfl (by decide)).2.1 .real rfl (by decide)
  have hrun := run_of_refused hrun hrefused
  obtain ⟨one, hone⟩ :=
    ((hanswer hrun).stages 1 (.number ⟨1⟩) rfl rfl (by decide)).1 .real rfl rfl
  have hrun := run_of_done hrun hone
  obtain ⟨reached, hreached⟩ := (hanswer hrun).moves rfl rfl (by decide)
  have hrun := run_of_done hrun hreached
  obtain ⟨table, last, htable, hcollects⟩ := (hanswer hrun).creates 1 rfl rfl
  obtain ⟨builder, column, hwrite, hfinish, hcolumn, -⟩ := hcollects.column_eq 1 .real rfl
  exact ⟨start, reached, table, last, builder, column, hstart, hrun, htable, hcollects.height_eq,
    hwrite, hfinish, hcolumn⟩

/-- No second row can be started when too many rows are expected. -/
theorem not_exists_moveNext_beyond_room :
    ¬∃ start first second, ofTypes ["size"] [.real] .beyondRoom = .ok start ∧
      start.call .moveNext = .done none first ∧ first.call .moveNext = .done none second := by
  rintro ⟨start, first, second, hstart, hfirst, hsecond⟩
  obtain ⟨builder, next, hbuilder, hpush⟩ :=
    @ColumnBuilder.push_real_of_no_room .beyondRoom .missing rfl rfl rfl (by decide)
  have hnew : start = ⟨["size"], [{ builder }], 0, .auto, false⟩ := by
    unfold ofTypes at hstart
    rw [List.mapM_cons, hbuilder] at hstart
    exact (Except.ok.inj hstart).symm
  subst hnew
  cases hfirst
  have hrefused : TableBuilder.call ⟨["size"], [{ builder }], 1, .auto, false⟩ .moveNext =
      .refused .tooLarge ⟨["size"], [{ builder := next }], 1, .auto, false⟩ := by
    simp [call_moveNext, moveNext, commit_eq, Slot.commitAll, hpush, Attempt.within,
      Attempt.mapAnswer, rowLimit]
  exact absurd (hsecond.symm.trans hrefused) (by simp)

end TableBuilder

end Columnar
