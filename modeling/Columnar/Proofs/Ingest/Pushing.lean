import Columnar.Proofs.Ingest.Accumulating

/-!
# What a push can come to

A cell that buffers refuse can still get into an accumulator: sparse storage takes any cell, and its
refusal waits until a buffer has to be made of all cells. `Settles` lists what choosing the storage
anew can come to, these late refusals included, and `Pushes` what a push can. Both lists are
complete for an accumulator that was given any cells (`Reached.settles`, `Reached.pushes`). Of
storable cells none is refused as long as there is room (`Reached.exists_done`); where there is
none, the cell is recorded before the push fails (`Reached.of_tooLarge`).
-/

set_option autoImplicit false
set_option relaxedAutoImplicit false

namespace Columnar

variable {C : Type} [Tracked C] {storable : C → Prop}

namespace Accumulator

/-- What is known of an accumulator, whatever cells it was given: only sparse storage may keep cells
that are not storable, and never as its default. -/
structure Reached (storable : C → Prop) (accumulator : Accumulator C) (options : IngestOptions)
    (cells : List C) : Prop extends accumulator.Holds options cells where
  stores : Tracked.Stores storable
  length_le : cells.length ≤ rowLimit
  of_not_sparse : accumulator.state ≠ .sparse → ∀ cell ∈ cells, storable cell
  of_sparse : ∀ deltas, accumulator.storage = .sparse deltas → storable deltas.default

/-- What choosing the storage of an accumulator of these cells can come to. -/
inductive Settles (storable : C → Prop) (accumulator : Accumulator C) (cells : List C)
    (valueBytes : Float) : Attempt (Accumulator C) Unit → Prop
  /-- Dense storage is not inspected after this cell. -/
  | waits (hstate : accumulator.state = .dense)
    (hsize : cells.length ≠ max accumulator.options.checkRows 1) :
    Settles storable accumulator cells valueBytes (.done () accumulator)
  /-- Dense storage is inspected and stays. -/
  | staysDense {default : C} {count : Nat} (hstate : accumulator.state = .dense)
    (hsize : cells.length = max accumulator.options.checkRows 1)
    (hdominant : dominant? cells = some (default, count))
    (hpays : (⟨cells.length, count⟩ : Density).sparsePaysOff valueBytes
      accumulator.options.minSparsity = false) :
    Settles storable accumulator cells valueBytes (.done () accumulator)
  /-- Dense storage is inspected and turns sparse. -/
  | turnsSparse {default : C} {count : Nat} (hstate : accumulator.state = .dense)
    (hsize : cells.length = max accumulator.options.checkRows 1)
    (hdominant : dominant? cells = some (default, count))
    (hpays : (⟨cells.length, count⟩ : Density).sparsePaysOff valueBytes
      accumulator.options.minSparsity = true) :
    Settles storable accumulator cells valueBytes
      (.done () { accumulator with storage := .sparse (.encode default cells) })
  | staysSparse {deltas : Deltas C} (hstorage : accumulator.storage = .sparse deltas)
    (hpays : accumulator.stillPays deltas valueBytes = true) :
    Settles storable accumulator cells valueBytes (.done () accumulator)
  | reverts {deltas : Deltas C} {kept : List C} (hstorage : accumulator.storage = .sparse deltas)
    (hpays : accumulator.stillPays deltas valueBytes = false)
    (hkeys : kept.map Tracked.key = cells.map Tracked.key)
    (hcells : ∀ cell ∈ cells, storable cell) :
    Settles storable accumulator cells valueBytes (.done ()
      { accumulator with storage := .reverted (Tracked.appendAll Tracked.emptyBuffer kept) })
  /-- Sparse storage no longer pays, but no buffer takes all its cells. -/
  | stuck {deltas : Deltas C} {fault : Fault} (hstorage : accumulator.storage = .sparse deltas)
    (hpays : accumulator.stillPays deltas valueBytes = false)
    (hcells : ¬∀ cell ∈ cells, storable cell) (hfault : fault ≠ .tooLarge) :
    Settles storable accumulator cells valueBytes (.refused fault accumulator)
  | staysReverted (hstate : accumulator.state = .reverted) :
    Settles storable accumulator cells valueBytes (.done () accumulator)
  | noRoom (hroom : accumulator.LacksRoom valueBytes) :
    Settles storable accumulator cells valueBytes (.refused .tooLarge accumulator)

/-- What pushing a cell onto an accumulator of these cells can come to. -/
inductive Pushes (storable : C → Prop) (accumulator : Accumulator C) (options : IngestOptions)
    (cells : List C) (cell : C) (valueBytes : Float) : Attempt (Accumulator C) Unit → Prop
  | full (hsize : rowLimit ≤ cells.length) :
    Pushes storable accumulator options cells cell valueBytes
      (.refused (.outOfBounds cells.length rowLimit) accumulator)
  /-- A buffer refuses the cell. -/
  | refuses {fault : Fault} (hsize : cells.length < rowLimit) (hstate : accumulator.state ≠ .sparse)
    (hcell : ¬storable cell) (hfault : fault ≠ .tooLarge) :
    Pushes storable accumulator options cells cell valueBytes (.refused fault accumulator)
  /-- The cell is recorded, and the storage is chosen anew. -/
  | records {recorded : Accumulator C} {attempt : Attempt (Accumulator C) Unit}
    (hsize : cells.length < rowLimit) (hcell : accumulator.state = .sparse ∨ storable cell)
    (hstate : recorded.state = accumulator.state)
    (hrecorded : recorded.Reached storable options (cells ++ [cell]))
    (hsettles : Settles storable recorded (cells ++ [cell]) valueBytes attempt) :
    Pushes storable accumulator options cells cell valueBytes attempt

variable {accumulator : Accumulator C} {options : IngestOptions} {cells : List C}

/-- A refusal to change the storage leaves it as it was. -/
theorem Settles.of_refused {valueBytes : Float} {fault : Fault} {next : Accumulator C}
    (h : Settles storable accumulator cells valueBytes (.refused fault next)) :
    next = accumulator ∧ (fault ≠ .tooLarge → ¬∀ cell ∈ cells, storable cell) := by
  cases h with
  | stuck hstorage hpays hcells hfault => exact ⟨rfl, fun _ ↦ hcells⟩
  | noRoom hroom => exact ⟨rfl, fun hnot ↦ absurd rfl hnot⟩

/-- An accumulator is dense, sparse or reverted by its storage. -/
theorem state_eq_sparse_iff :
    accumulator.state = .sparse ↔ ∃ deltas, accumulator.storage = .sparse deltas := by
  unfold state
  cases accumulator.storage with
  | sparse deltas => exact ⟨fun _ ↦ ⟨deltas, rfl⟩, fun _ ↦ rfl⟩
  | _ => exact ⟨nofun, nofun⟩

/-- Recording a cell changes the storage within its state. -/
theorem state_record (options : IngestOptions) (size : Nat) {row : Nat} {cell : C}
    {next : AccumulatorStorage C} (h : accumulator.storage.record row cell = .done () next) :
    (⟨options, size, next⟩ : Accumulator C).state = accumulator.state := by
  unfold state
  cases hstorage : accumulator.storage with
  | sparse deltas =>
    rw [hstorage, AccumulatorStorage.record] at h
    split at h
    · cases h
      rfl
    · cases h
      rfl
  | _ buffer =>
    rw [hstorage, AccumulatorStorage.record] at h
    cases happend : Tracked.append buffer cell with
    | refused fault buffer' =>
      rw [happend] at h
      contradiction
    | done _ buffer' =>
      rw [happend] at h
      cases h
      rfl

/-- A buffer refuses to record a cell that is not storable. -/
theorem record_of_not_storable (hstores : Tracked.Stores storable)
    (hstate : accumulator.state ≠ .sparse) {cell : C} (hcell : ¬storable cell) (row : Nat) :
    ∃ fault, fault ≠ .tooLarge ∧
      accumulator.storage.record row cell = .refused fault accumulator.storage := by
  cases hstorage : accumulator.storage with
  | sparse deltas => exact absurd (state_eq_sparse_iff.mpr ⟨deltas, hstorage⟩) hstate
  | _ buffer =>
    obtain ⟨fault, happend, hfault⟩ := hstores.refuses hcell buffer
    refine ⟨fault, hfault, ?_⟩
    rw [AccumulatorStorage.record, happend]
    rfl

theorem eq_of_ofOptions (h : ofOptions options = .ok accumulator) :
    accumulator = ⟨options, 0, .dense Tracked.emptyBuffer⟩ := by
  unfold ofOptions at h
  obtain ⟨buffer, hbuffer, haccumulator⟩ := Outcome.bind_eq_ok_iff.mp h
  unfold Tracked.withCapacity at hbuffer
  obtain ⟨-, -, hempty⟩ := Outcome.bind_eq_ok_iff.mp hbuffer
  cases hempty
  cases haccumulator
  rfl

theorem reached_ofOptions (hstores : Tracked.Stores storable)
    (h : ofOptions options = .ok accumulator) : accumulator.Reached storable options [] := by
  rw [eq_of_ofOptions h]
  exact ⟨⟨rfl, rfl, .dense⟩, hstores, Nat.zero_le _, nofun, nofun⟩

namespace Reached

/-- Recording a cell adds it, unless it would have to go into a buffer that refuses it. -/
theorem record_cases (h : accumulator.Reached storable options cells)
    (hsize : cells.length < rowLimit) (cell : C) :
    (accumulator.state ≠ .sparse ∧ ¬storable cell ∧ ∃ fault, fault ≠ .tooLarge ∧
      accumulator.storage.record cells.length cell = .refused fault accumulator.storage) ∨
    ((accumulator.state = .sparse ∨ storable cell) ∧ ∃ next,
      accumulator.storage.record cells.length cell = .done () next ∧
        (⟨options, cells.length + 1, next⟩ : Accumulator C).Reached storable options
          (cells ++ [cell])) := by
  have hlength : (cells ++ [cell]).length = cells.length + 1 := by simp
  have hlimit : (cells ++ [cell]).length ≤ rowLimit := hlength ▸ hsize
  by_cases hstate : accumulator.state = .sparse
  · obtain ⟨deltas, hstorage⟩ := state_eq_sparse_iff.mp hstate
    obtain ⟨default, hmem, rfl⟩ := h.exists_eq_encode hstorage
    obtain ⟨recorded, hrecord, hrecorded, hnext⟩ :=
      AccumulatorStorage.exists_record_sparse hmem cell
    rw [hstorage]
    refine .inr ⟨.inl hstate, _, hrecord, ⟨rfl, hlength.symm, hnext⟩, h.stores, hlimit, ?_, ?_⟩
    · intro hnot
      exact absurd rfl hnot
    · intro other hother
      cases hother
      rw [hrecorded]
      exact h.of_sparse _ hstorage
  · by_cases hcell : storable cell
    · obtain ⟨next, hrecord, hnext⟩ :=
        AccumulatorStorage.exists_record h.keeps (h.stores.accepts hcell)
      have hstate' := state_record options (cells.length + 1) hrecord
      refine .inr ⟨.inr hcell, next, hrecord, ⟨rfl, hlength.symm, hnext⟩, h.stores, hlimit, ?_, ?_⟩
      · intro _ other hother
        rcases List.mem_append.mp hother with hmem | hmem
        · exact h.of_not_sparse hstate other hmem
        · rw [List.mem_singleton.mp hmem]
          exact hcell
      · intro deltas hdeltas
        exact absurd (hstate' ▸ state_eq_sparse_iff.mpr ⟨deltas, hdeltas⟩) hstate
    · exact .inl ⟨hstate, hcell, record_of_not_storable h.stores hstate hcell _⟩

/-- Choosing the storage anew keeps the cells, also where it is refused. -/
theorem of_settles (h : accumulator.Reached storable options cells) {valueBytes : Float}
    {attempt : Attempt (Accumulator C) Unit}
    (hsettles : Settles storable accumulator cells valueBytes attempt) :
    attempt.state.Reached storable options cells := by
  cases hsettles with
  | turnsSparse hstate hsize hdominant hpays =>
    have hdefault := (dominant?_eq_some hdominant).2.mem
    refine ⟨⟨h.options_eq, h.size_eq, .sparse hdefault⟩, h.stores, h.length_le,
      fun hnot ↦ absurd rfl hnot, ?_⟩
    intro deltas hdeltas
    cases hdeltas
    exact h.of_not_sparse (by rw [hstate]; nofun) _ hdefault
  | reverts hstorage hpays hkeys hcells =>
    exact ⟨⟨h.options_eq, h.size_eq, .reverted hkeys⟩, h.stores, h.length_le, fun _ ↦ hcells, nofun⟩
  | _ => exact h

variable [LawfulTracked C]

/-- An inspection of dense storage comes to one of these. -/
theorem settles_inspect (h : accumulator.Reached storable options cells) (hcells : cells ≠ [])
    (hstorage : accumulator.storage = .dense (Tracked.appendAll Tracked.emptyBuffer cells))
    (hsize : cells.length = max accumulator.options.checkRows 1) (valueBytes : Float) :
    Settles storable accumulator cells valueBytes
      (accumulator.inspect (Tracked.appendAll Tracked.emptyBuffer cells) valueBytes) := by
  have hstate : accumulator.state = .dense := by rw [state, hstorage]
  have haccepts (cell : C) (hcell : cell ∈ cells) : Tracked.Accepts cell :=
    h.stores.accepts (h.of_not_sparse (by simp [hstate]) cell hcell)
  have hcontents := Tracked.contents_appendAll haccepts
  unfold inspect
  rw [hcontents]
  cases hdominant : dominant? cells with
  | none => exact absurd (dominant?_eq_none hdominant) hcells
  | some best =>
    obtain ⟨default, count⟩ := best
    simp only [hdominant]
    split
    · next hpays => exact .turnsSparse hstate hsize hdominant hpays
    · next hpays =>
      unfold Word.requireRoom
      split
      · exact .staysDense hstate hsize hdominant (Bool.eq_false_iff.mpr hpays)
      · next hroom =>
        refine .noRoom (.inspected hstorage (h.size_eq.trans hsize) ?_ (Nat.lt_of_not_le hroom))
        intro other occurring hother
        rw [hcontents, hdominant] at hother
        cases hother
        rw [h.size_eq]
        exact Bool.eq_false_iff.mpr hpays

/-- Choosing the storage anew comes to one of these. -/
theorem settles (h : accumulator.Reached storable options cells) (hcells : cells ≠ [])
    (valueBytes : Float) :
    Settles storable accumulator cells valueBytes (accumulator.settle valueBytes) := by
  have hsize := h.size_eq
  have hkeeps := h.keeps
  unfold settle
  obtain ⟨storage, hstorage⟩ : ∃ storage, accumulator.storage = storage := ⟨_, rfl⟩
  rw [hstorage] at hkeeps ⊢
  cases hkeeps with
  | dense =>
    simp only [hsize]
    split
    · next hcheck => exact h.settles_inspect hcells hstorage hcheck valueBytes
    · next hcheck => exact .waits (by rw [state, hstorage]) hcheck
  | reverted hkeys => exact .staysReverted (by rw [state, hstorage])
  | @sparse default hdefault =>
    simp only
    split
    · next hpays => exact .staysSparse hstorage hpays
    · next hpays =>
      have hpays' := Bool.eq_false_iff.mpr hpays
      have hkeys : ((Deltas.encode default cells).toList accumulator.size).map Tracked.key =
          cells.map Tracked.key := by
        rw [hsize]
        exact Deltas.map_key_toList_encode default cells
      rcases h.stores.bufferOf_cases (max accumulator.size accumulator.options.expected)
        ((Deltas.encode default cells).toList accumulator.size) with
        ⟨hroom, hbuffer⟩ | ⟨hstorable, hbuffer⟩ | ⟨hstorable, fault, hfault, hbuffer⟩
      · rw [hbuffer]
        have hlimit := LawfulTracked.hasRoom (Tracked.emptyBuffer : Tracked.Buffer C)
        have hlength := h.length_le
        exact .noRoom (.outgrown hstorage hpays' (by omega))
      · rw [hbuffer]
        exact .reverts hstorage hpays' hkeys (h.stores.forall_of_map_key_eq hkeys.symm hstorable)
      · rw [hbuffer]
        refine .stuck hstorage hpays' (fun hall ↦ hstorable ?_) hfault
        exact h.stores.forall_of_map_key_eq hkeys hall

theorem pushes (h : accumulator.Reached storable options cells) (cell : C) (valueBytes : Float) :
    Pushes storable accumulator options cells cell valueBytes
      (accumulator.push cell valueBytes) := by
  have hrecord (hsize : cells.length < rowLimit) := h.record_cases hsize cell
  obtain ⟨options', size, storage⟩ := accumulator
  obtain rfl : options' = options := h.options_eq
  obtain rfl : size = cells.length := h.size_eq
  unfold push
  by_cases hsize : rowLimit ≤ cells.length
  · simp only [if_pos hsize]
    exact .full hsize
  · simp only [if_neg hsize]
    have hlt := Nat.lt_of_not_le hsize
    rcases hrecord hlt with ⟨hstate, hcell, fault, hfault, hrefused⟩ | ⟨hcell, next, hdone, hnext⟩
    · simp only [hrefused]
      exact .refuses hlt hstate hcell hfault
    · simp only [hdone]
      exact .records hlt hcell (state_record options' _ hdone) hnext
        (hnext.settles (by simp) valueBytes)

/-- A push that fails for want of room has recorded its cell before it asked for the room. -/
theorem of_tooLarge (h : accumulator.Reached storable options cells) {cell : C}
    {valueBytes : Float} {next : Accumulator C}
    (hpush : accumulator.push cell valueBytes = .refused .tooLarge next) :
    next.Reached storable options (cells ++ [cell]) ∧ next.LacksRoom valueBytes ∧
      next.state = accumulator.state := by
  have hpushes := h.pushes cell valueBytes
  rw [hpush] at hpushes
  cases hpushes with
  | refuses hsize hstate hcell hfault => exact absurd rfl hfault
  | records hsize hcell hstate hrecorded hsettles =>
    cases hsettles with
    | stuck hstorage hpays hcells hfault => exact absurd rfl hfault
    | noRoom hroom => exact ⟨hrecorded, hroom, hstate⟩

/-- No push fails for want of room, when there is room for the expected rows. -/
theorem ne_tooLarge (h : accumulator.Reached storable options cells)
    (hroom : Tracked.HasRoom C options.expected) {cell : C} {valueBytes : Float} {fault : Fault}
    {next : Accumulator C} (hpush : accumulator.push cell valueBytes = .refused fault next) :
    fault ≠ .tooLarge := by
  rintro rfl
  obtain ⟨hnext, hlacks, -⟩ := h.of_tooLarge hpush
  obtain ⟨buffer, hlt⟩ := hlacks.exists_sizeLimit_lt
  rw [hnext.options_eq] at hlt
  exact absurd (hroom buffer) (Nat.not_le.mpr hlt)

/-- A successful push adds the cell. -/
theorem of_done (h : accumulator.Reached storable options cells) {cell : C} {valueBytes : Float}
    {next : Accumulator C} (hpush : accumulator.push cell valueBytes = .done () next) :
    next.Reached storable options (cells ++ [cell]) := by
  have hpushes := h.pushes cell valueBytes
  rw [hpush] at hpushes
  cases hpushes with
  | records hsize hcell hstate hrecorded hsettles => exact hrecorded.of_settles hsettles

/-- A storable cell is refused only when no row is left, and then nothing has changed. -/
theorem of_refused (h : accumulator.Reached storable options cells)
    (hcells : ∀ other ∈ cells, storable other) {cell : C} (hcell : storable cell)
    {valueBytes : Float} {fault : Fault} {next : Accumulator C}
    (hpush : accumulator.push cell valueBytes = .refused fault next) (hfault : fault ≠ .tooLarge) :
    rowLimit ≤ cells.length ∧ next = accumulator := by
  have hpushes := h.pushes cell valueBytes
  rw [hpush] at hpushes
  cases hpushes with
  | full hsize => exact ⟨hsize, rfl⟩
  | refuses hsize hstate hnot => exact absurd hcell hnot
  | records hsize hcell' hstate hrecorded hsettles =>
    have hall : ∀ other ∈ cells ++ [cell], storable other :=
      List.forall_mem_append.mpr ⟨hcells, List.forall_mem_singleton.mpr hcell⟩
    exact absurd hall (hsettles.of_refused.2 hfault)

/-- With a row left, and room for the expected rows, a storable cell is taken. -/
theorem exists_done (h : accumulator.Reached storable options cells)
    (hcells : ∀ other ∈ cells, storable other) (hroom : Tracked.HasRoom C options.expected)
    (hsize : cells.length < rowLimit) {cell : C} (hcell : storable cell)
    (valueBytes : Float) :
    ∃ next, accumulator.push cell valueBytes = .done () next := by
  cases hpush : accumulator.push cell valueBytes with
  | done answer next => exact ⟨next, rfl⟩
  | refused fault next =>
    have hfault := h.ne_tooLarge hroom hpush
    obtain ⟨hfull, -⟩ := h.of_refused hcells hcell hpush hfault
    exact absurd hsize (Nat.not_lt.mpr hfull)

/-- After a push, taken or refused, the cells of before are held, with or without the new one. -/
theorem held_cases (h : accumulator.Reached storable options cells) (cell : C)
    (valueBytes : Float) :
    (accumulator.push cell valueBytes).state.Reached storable options cells ∨
      (accumulator.push cell valueBytes).state.Reached storable options (cells ++ [cell]) := by
  have hpushes := h.pushes cell valueBytes
  generalize accumulator.push cell valueBytes = attempt at hpushes ⊢
  cases hpushes with
  | full hsize => exact .inl h
  | refuses hsize hstate hcell hfault => exact .inl h
  | records hsize hcell hstate hrecorded hsettles => exact .inr (hrecorded.of_settles hsettles)

/-- Whatever was pushed, some cells are held. -/
theorem exists_held (h : accumulator.Reached storable options cells) (cell : C)
    (valueBytes : Float) :
    ∃ held, (accumulator.push cell valueBytes).state.Reached storable options held := by
  rcases h.held_cases cell valueBytes with hheld | hheld
  · exact ⟨cells, hheld⟩
  · exact ⟨cells ++ [cell], hheld⟩

end Reached

theorem Holds.reached (h : accumulator.Holds options cells) (hstores : Tracked.Stores storable)
    (hcells : ∀ cell ∈ cells, storable cell) (hlength : cells.length ≤ rowLimit) :
    accumulator.Reached storable options cells := by
  refine ⟨h, hstores, hlength, fun _ ↦ hcells, ?_⟩
  intro deltas hdeltas
  obtain ⟨default, hdefault, rfl⟩ := h.exists_eq_encode hdeltas
  exact hcells default hdefault

end Accumulator

end Columnar
